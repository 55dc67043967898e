import DdbShell.Expressions.ExpressionGrammar
import DdbShell.Lib.Maps
import Mathlib.Data.Bool.AllAny

/-!
The symbol table over a run of the builders. `Valid` is what minting keeps:
every token comes from a counter the table has passed, and no two names share
one. So a token, once minted, resolves to its name or value in every later
table, and the inverted map the request carries is a true inverse.
-/

namespace DdbShell

open Lexing (CharClass)

namespace SymbolTable

def attrToken (namePrefix : String) (i : Nat) : String := "#a" ++ namePrefix ++ toString i

def valueToken (namePrefix : String) (i : Nat) : String := ":v" ++ namePrefix ++ toString i

structure Valid (st : SymbolTable) : Prop where
  wordPrefix : ∀ c ∈ st.namePrefix.toList, charClass c = .word
  names : ∀ name token : String, st.names[name]? = some token →
    ∃ i < st.attrIx, token = attrToken st.namePrefix i
  injective : ∀ name name' token : String, st.names[name]? = some token →
    st.names[name']? = some token → name = name'
  values : ∀ (token : String) (v : Value), st.values[token]? = some v →
    ∃ i < st.valueIx, token = valueToken st.namePrefix i

/-- A later table of the same run. -/
structure Extends (st st' : SymbolTable) : Prop where
  samePrefix : st'.namePrefix = st.namePrefix
  names : ∀ name token : String, st.names[name]? = some token → st'.names[name]? = some token
  values : ∀ (token : String) (v : Value), st.values[token]? = some v → st'.values[token]? = some v

theorem Extends.refl (st : SymbolTable) : Extends st st :=
  ⟨rfl, fun _ _ h => h, fun _ _ h => h⟩

theorem Extends.trans {st st' st'' : SymbolTable} (h : Extends st st') (h' : Extends st' st'') :
    Extends st st'' :=
  ⟨h'.samePrefix.trans h.samePrefix,
    fun name token hn => h'.names name token (h.names name token hn),
    fun token v hv => h'.values token v (h.values token v hv)⟩

theorem valid_empty {namePrefix : String}
    (h : ∀ c ∈ namePrefix.toList, charClass c = .word) :
    Valid ⟨namePrefix, 1, 1, ∅, ∅⟩ :=
  ⟨h, by simp, by simp, by simp⟩

theorem prefixDigits_word (length value : Nat) :
    ∀ c ∈ prefixDigits length value, charClass c = .word := by
  induction length generalizing value with
  | zero => simp [prefixDigits]
  | succ length ih =>
      have hpositive : 0 < prefixChars.length := by decide
      intro c hc
      rcases List.mem_cons.mp hc with rfl | hc
      · have hall : ∀ c ∈ prefixChars, charClass c = .word :=
          List.all_iff_forall_prop.mp (by decide +kernel)
        have hlt := Nat.mod_lt value hpositive
        rw [List.getD_eq_getElem?_getD, List.getElem?_eq_getElem hlt]
        exact hall _ (List.getElem_mem hlt)
      · exact ih _ c hc

/-- The table every statement starts from. -/
theorem valid_fresh (counter : Nat) : Valid ⟨uniquePrefix counter, 1, 1, ∅, ∅⟩ := by
  refine valid_empty ?_
  rw [uniquePrefix, String.toList_ofList]
  exact prefixDigits_word 3 counter

theorem toString_injective {i j : Nat} (h : toString i = toString j) : i = j := by
  have hdigits : Nat.toDigits 10 i = Nat.toDigits 10 j := by
    rw [Nat.toString_eq_ofList_toDigits, Nat.toString_eq_ofList_toDigits] at h
    exact String.ofList_injective h
  rw [← Nat.ofDigitChars_ten_toDigits (n := i), hdigits, Nat.ofDigitChars_ten_toDigits]

theorem attrToken_injective {p : String} {i j : Nat} (h : attrToken p i = attrToken p j) :
    i = j := by
  apply toString_injective
  simpa [attrToken] using h

theorem valueToken_injective {p : String} {i j : Nat} (h : valueToken p i = valueToken p j) :
    i = j := by
  apply toString_injective
  simpa [valueToken] using h

theorem charClass_digit {c : Char} (h : c.isDigit = true) : charClass c = .word := by
  simp [charClass, Char.isAlphanum, h]

theorem toString_word (i : Nat) : ∀ c ∈ (toString i).toList, charClass c = .word := by
  intro c hc
  rw [Nat.toString_eq_ofList_toDigits, String.toList_ofList] at hc
  exact charClass_digit (Nat.isDigit_of_mem_toDigits (by decide) (by decide) hc)

/-- A token is one word. -/
theorem token_word {kind p : String} (hk : ∀ c ∈ kind.toList, charClass c = .word)
    (hp : ∀ c ∈ p.toList, charClass c = .word) (i : Nat) :
    ∀ c ∈ (kind ++ p ++ toString i).toList, charClass c = .word := by
  intro c hc
  simp only [String.toList_append, List.mem_append] at hc
  rcases hc with (hc | hc) | hc
  · exact hk c hc
  · exact hp c hc
  · exact toString_word i c hc

theorem attrToken_word {p : String} (h : ∀ c ∈ p.toList, charClass c = .word) (i : Nat) :
    ∀ c ∈ (attrToken p i).toList, charClass c = .word :=
  token_word (List.all_iff_forall_prop.mp (by decide +kernel)) h i

theorem valueToken_word {p : String} (h : ∀ c ∈ p.toList, charClass c = .word) (i : Nat) :
    ∀ c ∈ (valueToken p i).toList, charClass c = .word :=
  token_word (List.all_iff_forall_prop.mp (by decide +kernel)) h i

/-! ### Minting -/

theorem newBare_names (name : String) (st : SymbolTable) :
    (newBare name st).2.names[name]? = some (newBare name st).1 := by
  unfold newBare
  cases h : st.names[name]? with
  | some known => exact h
  | none =>
      have hmem : name ∉ st.names := by simp [Std.TreeMap.mem_iff_isSome_getElem?, h]
      simp only [Std.TreeMap.getElem?_insertIfNew]
      rw [if_pos ⟨by simp, hmem⟩]

theorem newBare_extends (name : String) (st : SymbolTable) :
    Extends st (newBare name st).2 := by
  unfold newBare
  cases h : st.names[name]? with
  | some known => exact .refl st
  | none =>
      refine ⟨rfl, ?_, fun _ _ hv => hv⟩
      intro name' token hn
      simp only [Std.TreeMap.getElem?_insertIfNew]
      split
      · rename_i hnew
        have hsame : name = name' := by simpa using hnew.1
        rw [← hsame, h] at hn
        cases hn
      · exact hn

theorem Valid.newBare {st : SymbolTable} (hst : Valid st) (name : String) :
    Valid (newBare name st).2 := by
  unfold SymbolTable.newBare
  cases h : st.names[name]? with
  | some known => exact hst
  | none =>
      have hlookup : ∀ other : String, (st.names.insertIfNew name
          ("#a" ++ st.namePrefix ++ toString st.attrIx))[other]? =
            if name = other then some (attrToken st.namePrefix st.attrIx)
            else st.names[other]? := by
        intro other
        have hmem : name ∉ st.names := by simp [Std.TreeMap.mem_iff_isSome_getElem?, h]
        simp [Std.TreeMap.getElem?_insertIfNew, hmem, attrToken]
      refine ⟨hst.wordPrefix, ?_, ?_, hst.values⟩
      · intro other token ht
        simp only [hlookup] at ht
        split at ht
        · cases ht
          exact ⟨st.attrIx, Nat.lt_succ_self _, rfl⟩
        · obtain ⟨i, hi, rfl⟩ := hst.names other token ht
          exact ⟨i, Nat.lt_succ_of_lt hi, rfl⟩
      · -- the new token is past every token there is
        have hfresh : ∀ other : String,
            st.names[other]? ≠ some (attrToken st.namePrefix st.attrIx) := by
          intro other hother
          obtain ⟨i, hi, hsame⟩ := hst.names other _ hother
          have hix := attrToken_injective hsame
          omega
        intro n n' token hn hn'
        simp only [hlookup] at hn hn'
        split at hn <;> split at hn'
        · simp_all
        · cases hn
          exact absurd hn' (hfresh n')
        · cases hn'
          exact absurd hn (hfresh n)
        · exact hst.injective n n' token hn hn'

theorem newValue_values {st : SymbolTable} (hst : Valid st) (v : Value) :
    (newValue v st).2.values[(newValue v st).1]? = some v := by
  have hfresh : (newValue v st).1 ∉ st.values := by
    intro hmem
    obtain ⟨x, hx⟩ := Option.isSome_iff_exists.mp (Std.TreeMap.mem_iff_isSome_getElem?.mp hmem)
    obtain ⟨i, hi, hsame⟩ := hst.values _ _ hx
    have hix := valueToken_injective hsame
    omega
  simp only [newValue] at hfresh ⊢
  simp only [Std.TreeMap.getElem?_insertIfNew]
  rw [if_pos ⟨by simp, hfresh⟩]

theorem newValue_extends {st : SymbolTable} (v : Value) :
    Extends st (newValue v st).2 := by
  refine ⟨rfl, fun _ _ h => h, ?_⟩
  intro token x hx
  simp only [newValue, Std.TreeMap.getElem?_insertIfNew]
  split
  · rename_i hnew
    have hsame : (":v" ++ st.namePrefix ++ toString st.valueIx) = token := by simpa using hnew.1
    have hmem : token ∈ st.values := by simp [Std.TreeMap.mem_iff_isSome_getElem?, hx]
    exact absurd (hsame ▸ hmem) hnew.2
  · exact hx

theorem Valid.newValue {st : SymbolTable} (hst : Valid st) (v : Value) :
    Valid (newValue v st).2 := by
  refine ⟨hst.wordPrefix, hst.names, hst.injective, ?_⟩
  intro token x hx
  simp only [SymbolTable.newValue, Std.TreeMap.getElem?_insertIfNew] at hx
  split at hx
  · rename_i hnew
    have hsame : (":v" ++ st.namePrefix ++ toString st.valueIx) = token := by simpa using hnew.1
    exact ⟨st.valueIx, Nat.lt_succ_self _, hsame.symm⟩
  · obtain ⟨i, hi, rfl⟩ := hst.values token x hx
    exact ⟨i, Nat.lt_succ_of_lt hi, rfl⟩

/-- A computation that only adds to the table. -/
def Grows {α : Type} (x : Alias α) : Prop := ∀ st, Valid st → Valid (x st).2 ∧ Extends st (x st).2

namespace Grows

variable {α β : Type} {x : Alias α} {f : α → Alias β}

theorem pure (a : α) : Grows (Pure.pure a : Alias α) := fun st hst => ⟨hst, .refl st⟩

theorem bind (hx : Grows x) (hf : ∀ a, Grows (f a)) : Grows (x >>= f) := by
  intro st hst
  obtain ⟨hmid, hext⟩ := hx st hst
  obtain ⟨hend, hext'⟩ := hf (x st).1 (x st).2 hmid
  exact ⟨hend, hext.trans hext'⟩

theorem map (hx : Grows x) (g : α → β) : Grows (g <$> x) := hx

end Grows

theorem newBare_grows (name : String) : Grows (newBare name) :=
  fun st hst => ⟨hst.newBare name, newBare_extends name st⟩

theorem newValue_grows (v : Value) : Grows (newValue v) :=
  fun _ hst => ⟨hst.newValue v, newValue_extends v⟩

/-- Names take no value. -/
theorem newSegments_values (token : String) (segments : List String) (st : SymbolTable) :
    (newSegments token segments st).2.values = st.values := by
  induction segments generalizing token st with
  | nil => rfl
  | cons segment rest ih =>
      rw [newSegments, Alias.bind_apply, ih]
      simp only [newSegment, Alias.bind_apply, Alias.pure_apply, newBare]
      split <;> rfl

/-- The inverted map resolves every minted token. -/
theorem Valid.getNames {st : SymbolTable} (hst : Valid st) {name token : String}
    (h : st.names[name]? = some token) : st.getNames[token]? = some name := by
  have hfold : st.getNames = (st.names.toList.map Prod.swap).foldl
      (fun inverted entry => inverted.insertIfNew entry.1 entry.2) ∅ := by
    rw [SymbolTable.getNames, List.foldl_map]
    rfl
  rw [hfold, Maps.foldl_insertIfNew_getElem?, Std.TreeMap.getElem?_emptyc, Option.none_or]
  refine Maps.lookup_eq_some ?_ ?_
  · refine List.mem_map.mpr ⟨(name, token), ?_, rfl⟩
    exact Std.TreeMap.mem_toList_iff_getElem?_eq_some.mpr h
  · intro other hother
    obtain ⟨entry, hentry, hswap⟩ := List.mem_map.mp hother
    have hget := Std.TreeMap.mem_toList_iff_getElem?_eq_some.mp hentry
    cases hswap
    exact hst.injective _ _ _ hget h

end SymbolTable

end DdbShell
