import DdbShell.Connection.Template
import Mathlib.Data.List.Induction

/-!
Runs of bind calls, and what their expansion needs. A run leaves the value most
recently bound to each position and name; positions below one that is bound and
not bound themselves hold a null.
-/

namespace DdbShell

/-- A call of either `bind`. -/
inductive BindCall where
  | index (index1 : Int) (v : Value)
  | name (name : String) (v : Value)

/-- The value a call has for a placeholder. -/
def BindCall.valueFor : Mark → BindCall → Option Value
  | .positional k, .index index1 v => if index1 = k + 1 then some v else none
  | .named target, .name given v => if given = target then some v else none
  | _, _ => none

/-- The value most recently bound to a placeholder. -/
def latest (calls : List BindCall) (m : Mark) : Option Value :=
  (calls.filterMap (BindCall.valueFor m)).getLast?

namespace PreparedStatement

def bind (p : PreparedStatement) : BindCall → PreparedStatement
  | .index index1 v => p.bindIndex index1 v
  | .name name v => p.bindName name v

def bindAll (sql : String) (calls : List BindCall) : PreparedStatement :=
  calls.foldl bind (new sql)

end PreparedStatement

theorem latest_append (calls : List BindCall) (call : BindCall) (m : Mark) :
    latest (calls ++ [call]) m = (call.valueFor m).or (latest calls m) := by
  rw [latest, latest, List.filterMap_append, List.getLast?_append]
  cases hvalue : call.valueFor m <;> simp [hvalue]

theorem latest_isSome {calls : List BindCall} {m : Mark} :
    (latest calls m).isSome = true ↔ ∃ call ∈ calls, (call.valueFor m).isSome = true := by
  rw [latest, List.getLast?_isSome]
  constructor
  · intro hne
    obtain ⟨v, hv⟩ := List.exists_mem_of_ne_nil _ hne
    obtain ⟨call, hcall, hvalue⟩ := List.mem_filterMap.mp hv
    exact ⟨call, hcall, by rw [hvalue]; rfl⟩
  · rintro ⟨call, hcall, hvalue⟩
    obtain ⟨v, hv⟩ := Option.isSome_iff_exists.mp hvalue
    exact List.ne_nil_of_mem (List.mem_filterMap.mpr ⟨call, hcall, hv⟩)

theorem latest_positional_isSome {calls : List BindCall} {k : Nat} :
    (latest calls (.positional k)).isSome = true ↔ ∃ v, .index (k + 1) v ∈ calls := by
  rw [latest_isSome]
  constructor
  · rintro ⟨call, hcall, hvalue⟩
    cases call with
    | name given v => cases hvalue
    | index index1 v =>
        simp only [BindCall.valueFor, Option.isSome_ite] at hvalue
        exact ⟨v, hvalue ▸ hcall⟩
  · rintro ⟨v, hv⟩
    exact ⟨_, hv, by simp [BindCall.valueFor]⟩

theorem latest_named_isSome {calls : List BindCall} {name : String} :
    (latest calls (.named name)).isSome = true ↔ ∃ v, .name name v ∈ calls := by
  rw [latest_isSome]
  constructor
  · rintro ⟨call, hcall, hvalue⟩
    cases call with
    | index index1 v => cases hvalue
    | name given v =>
        simp only [BindCall.valueFor, Option.isSome_ite] at hvalue
        exact ⟨v, hvalue ▸ hcall⟩
  · rintro ⟨v, hv⟩
    exact ⟨_, hv, by simp [BindCall.valueFor]⟩

/-! ### What a run of calls leaves -/

/-- The state of a statement after its calls. -/
structure Bound (sql : String) (calls : List BindCall) (p : PreparedStatement) : Prop where
  sql : p.sql = sql.toList
  misuse : p.bindError = none ↔ ∀ i v, .index i v ∈ calls → 1 ≤ i
  length : ∀ k, k < p.positional.length ↔ ∃ j, k ≤ j ∧ (latest calls (.positional j)).isSome = true
  positional : ∀ k < p.positional.length,
    p.positional[k]? = some ((latest calls (.positional k)).getD .NUL)
  named : ∀ name v, (name, v) ∈ p.named ↔ latest calls (.named name) = some v
  distinct : p.names.Nodup

theorem bound_new (sql : String) : Bound sql [] (.new sql) where
  sql := rfl
  misuse := by simp [PreparedStatement.new]
  length k := by simp [PreparedStatement.new, latest]
  positional k hk := absurd hk (Nat.not_lt_zero k)
  named name v := by simp [PreparedStatement.new, latest]
  distinct := List.nodup_nil

/-! #### A position -/

theorem bindIndex_length {p : PreparedStatement} {index1 : Int} (hindex : 1 ≤ index1) (v : Value) :
    (p.bindIndex index1 v).positional.length =
      max p.positional.length ((index1 - 1).toNat + 1) := by
  rw [PreparedStatement.bindIndex, if_neg (by omega)]
  simp only [List.length_set, List.length_append, List.length_replicate]
  omega

theorem bindIndex_getElem {p : PreparedStatement} {index1 : Int} (hindex : 1 ≤ index1) (v : Value)
    {k : Nat} (hk : k < (p.bindIndex index1 v).positional.length) :
    (p.bindIndex index1 v).positional[k]? =
      some (if k = (index1 - 1).toNat then v else (p.positional[k]?).getD .NUL) := by
  rw [bindIndex_length hindex] at hk
  rw [PreparedStatement.bindIndex, if_neg (by omega), List.getElem?_set]
  by_cases hsame : (index1 - 1).toNat = k
  · rw [if_pos hsame, if_pos hsame.symm, if_pos]
    simp only [List.length_append, List.length_replicate]
    omega
  · rw [if_neg hsame, if_neg (Ne.symm hsame)]
    by_cases hlt : k < p.positional.length
    · rw [List.getElem?_append_left hlt, List.getElem?_eq_getElem hlt, Option.getD_some]
    · rw [List.getElem?_append_right (by omega), List.getElem?_replicate, if_pos (by omega),
        List.getElem?_eq_none (by omega), Option.getD_none]

theorem bindIndex_misused {p : PreparedStatement} {index1 : Int} (hindex : ¬1 ≤ index1)
    (v : Value) : (p.bindIndex index1 v).positional = p.positional := by
  rw [PreparedStatement.bindIndex, if_pos (by omega)]

theorem bindIndex_named (p : PreparedStatement) (index1 : Int) (v : Value) :
    (p.bindIndex index1 v).named = p.named := by
  rw [PreparedStatement.bindIndex]
  split <;> rfl

theorem bindIndex_sql (p : PreparedStatement) (index1 : Int) (v : Value) :
    (p.bindIndex index1 v).sql = p.sql := by
  rw [PreparedStatement.bindIndex]
  split <;> rfl

theorem bindIndex_misuse (p : PreparedStatement) (index1 : Int) (v : Value) :
    (p.bindIndex index1 v).bindError = none ↔ p.bindError = none ∧ 1 ≤ index1 := by
  rw [PreparedStatement.bindIndex]
  split
  · rename_i hlt
    constructor
    · rintro ⟨⟩
    · rintro ⟨-, hle⟩
      omega
  · rename_i hge
    constructor
    · intro h
      exact ⟨h, by omega⟩
    · rintro ⟨h, -⟩
      exact h

/-! #### A name -/

theorem any_name {p : PreparedStatement} {name : String} :
    (p.named.any fun entry => entry.1 = name) = true ↔ name ∈ p.names := by
  simp [PreparedStatement.names]

theorem bindName_named (p : PreparedStatement) (name : String) (v : Value) (other : String)
    (w : Value) : (other, w) ∈ (p.bindName name v).named ↔
      other = name ∧ w = v ∨ other ≠ name ∧ (other, w) ∈ p.named := by
  rw [PreparedStatement.bindName]
  split
  · rename_i hany
    obtain ⟨old, hold⟩ : ∃ old, (name, old) ∈ p.named := by
      obtain ⟨entry, hentry, rfl⟩ := List.mem_map.mp (any_name.mp hany)
      exact ⟨entry.2, hentry⟩
    rw [List.mem_map]
    constructor
    · rintro ⟨entry, hentry, heq⟩
      split at heq
      · cases heq
        exact .inl ⟨rfl, rfl⟩
      · rename_i hne
        subst heq
        exact .inr ⟨hne, hentry⟩
    · rintro (⟨rfl, rfl⟩ | ⟨hne, hmem⟩)
      · exact ⟨(other, old), hold, by rw [if_pos rfl]⟩
      · exact ⟨(other, w), hmem, by rw [if_neg hne]⟩
  · rename_i hnone
    rw [List.mem_append, List.mem_singleton, Prod.mk.injEq]
    constructor
    · rintro (hmem | hnew)
      · refine .inr ⟨?_, hmem⟩
        rintro rfl
        exact hnone (any_name.mpr (List.mem_map_of_mem hmem))
      · exact .inl hnew
    · rintro (hnew | ⟨-, hmem⟩)
      · exact .inr hnew
      · exact .inl hmem

theorem bindName_distinct {p : PreparedStatement} (h : p.names.Nodup) (name : String) (v : Value) :
    (p.bindName name v).names.Nodup := by
  rw [PreparedStatement.bindName]
  split
  · have hsame : ∀ entry : String × Value,
        (if entry.1 = name then (name, v) else entry).1 = entry.1 := by
      intro entry
      split
      · rename_i hname
        exact hname.symm
      · rfl
    simpa [PreparedStatement.names, Function.comp_def, hsame] using h
  · rename_i hnone
    rw [PreparedStatement.names, List.map_append, List.nodup_append_comm]
    refine List.nodup_cons.mpr ⟨?_, h⟩
    intro hmem
    exact hnone (any_name.mpr hmem)

/-! #### The run -/

theorem bound_index {sql : String} {calls : List BindCall} {p : PreparedStatement}
    (h : Bound sql calls p) (index1 : Int) (v : Value) :
    Bound sql (calls ++ [.index index1 v]) (p.bindIndex index1 v) := by
  have hnamed : ∀ name, latest (calls ++ [.index index1 v]) (.named name) =
      latest calls (.named name) := by
    intro name
    rw [latest_append]
    rfl
  have hlatest : ∀ k : Nat, latest (calls ++ [.index index1 v]) (.positional k) =
      if index1 = k + 1 then some v else latest calls (.positional k) := by
    intro k
    rw [latest_append, BindCall.valueFor]
    split <;> rfl
  refine ⟨by rw [bindIndex_sql, h.sql], ?_, ?_, ?_, ?_, ?_⟩
  · rw [bindIndex_misuse, h.misuse]
    constructor
    · rintro ⟨hcalls, hindex⟩ i w hmem
      rcases List.mem_append.mp hmem with hmem | hmem
      · exact hcalls i w hmem
      · cases List.mem_singleton.mp hmem
        exact hindex
    · intro hcalls
      exact ⟨fun i w hmem => hcalls i w (List.mem_append_left _ hmem),
        hcalls index1 v (List.mem_append_right _ (List.mem_singleton_self _))⟩
  · intro k
    simp only [hlatest]
    by_cases hindex : 1 ≤ index1
    · rw [bindIndex_length hindex, lt_max_iff, h.length]
      constructor
      · rintro (⟨j, hle, hj⟩ | hlt)
        · exact ⟨j, hle, by split <;> [rfl; exact hj]⟩
        · exact ⟨(index1 - 1).toNat, by omega, by rw [if_pos (by omega)]; rfl⟩
      · rintro ⟨j, hle, hj⟩
        split at hj
        · exact .inr (by omega)
        · exact .inl ⟨j, hle, hj⟩
    · have hother : ∀ j : Nat, index1 ≠ j + 1 := fun j => by omega
      simp only [hother, if_false]
      rw [bindIndex_misused hindex, h.length]
  · intro k hk
    rw [hlatest]
    by_cases hindex : 1 ≤ index1
    · rw [bindIndex_getElem hindex v hk]
      by_cases hsame : k = (index1 - 1).toNat
      · rw [if_pos hsame, if_pos (by omega)]
        rfl
      · rw [if_neg hsame, if_neg (by omega)]
        by_cases hlt : k < p.positional.length
        · rw [h.positional k hlt]
          rfl
        · have hnone : latest calls (.positional k) = none := by
            rw [← Option.not_isSome_iff_eq_none]
            intro hsome
            exact hlt ((h.length k).mpr ⟨k, le_rfl, hsome⟩)
          rw [hnone, List.getElem?_eq_none (by omega)]
    · rw [bindIndex_misused hindex] at hk ⊢
      rw [if_neg (by omega), h.positional k hk]
  · intro name w
    rw [bindIndex_named, h.named, hnamed]
  · rw [PreparedStatement.names, bindIndex_named]
    exact h.distinct

theorem bound_name {sql : String} {calls : List BindCall} {p : PreparedStatement}
    (h : Bound sql calls p) (name : String) (v : Value) :
    Bound sql (calls ++ [.name name v]) (p.bindName name v) := by
  have hpositional : ∀ k, latest (calls ++ [.name name v]) (.positional k) =
      latest calls (.positional k) := by
    intro k
    rw [latest_append]
    rfl
  have hsame : (p.bindName name v).sql = p.sql ∧
      (p.bindName name v).bindError = p.bindError ∧
      (p.bindName name v).positional = p.positional := by
    rw [PreparedStatement.bindName]
    split <;> exact ⟨rfl, rfl, rfl⟩
  obtain ⟨hsql, herror, hvalues⟩ := hsame
  refine ⟨by rw [hsql, h.sql], ?_, ?_, ?_, ?_, bindName_distinct h.distinct name v⟩
  · rw [herror, h.misuse]
    simp
  · intro k
    rw [hvalues, h.length]
    simp only [hpositional]
  · intro k hk
    rw [hvalues] at hk ⊢
    rw [h.positional k hk, hpositional]
  · intro other w
    rw [bindName_named, h.named, latest_append]
    by_cases hname : other = name
    · subst hname
      simp [BindCall.valueFor, eq_comm]
    · simp [BindCall.valueFor, hname, Ne.symm hname]

theorem bound_bindAll (sql : String) (calls : List BindCall) :
    Bound sql calls (.bindAll sql calls) := by
  induction calls using List.reverseRecOn with
  | nil => exact bound_new sql
  | append_singleton calls call ih =>
      rw [PreparedStatement.bindAll, List.foldl_append] at *
      cases call with
      | index index1 v => exact bound_index ih index1 v
      | name name v => exact bound_name ih name v

/-! ### What filling a template needs -/

def PreparedStatement.written (p : PreparedStatement) (m : Mark) : List Char :=
  match p.literalFor m with
  | .ok text => text
  | .error _ => []

/-- The position after the last one that some placeholders take. -/
def nextAfter (next : Nat) (ms : List Mark) : Nat := ms.foldl Mark.next next

/-- Nothing bound is left over once some placeholders are filled. -/
def UsesAll (p : PreparedStatement) (next : Nat) (used : List Bool) (ms : List Mark) : Prop :=
  p.positional.length ≤ nextAfter next ms ∧ ∀ k < p.named.length, used[k]? = some true ∨
    ∃ name, .named name ∈ ms ∧ p.named.findIdx? (fun entry => entry.1 = name) = some k

theorem unusedError_none_iff {p : PreparedStatement} {next : Nat} {used : List Bool}
    (hused : used.length = p.named.length) :
    unusedError p next used = none ↔ UsesAll p next used [] := by
  have hall : (p.named.zip used).find? (fun entry => !entry.2) = none ↔
      ∀ k < p.named.length, used[k]? = some true := by
    rw [List.find?_eq_none]
    constructor
    · intro h k hk
      have hmem : (p.named[k], used[k]) ∈ p.named.zip used := by
        rw [List.mem_iff_getElem]
        exact ⟨k, by rw [List.length_zip]; omega, List.getElem_zip⟩
      have hone := h _ hmem
      rw [List.getElem?_eq_getElem (by omega)]
      simpa using hone
    · rintro h ⟨entry, flag⟩ hmem
      obtain ⟨k, hk, heq⟩ := List.mem_iff_getElem.mp hmem
      rw [List.length_zip] at hk
      have hone := h k (by omega)
      rw [List.getElem_zip, Prod.mk.injEq] at heq
      rw [List.getElem?_eq_getElem (by omega), heq.2] at hone
      simp [Option.some.inj hone]
  rw [unusedError, UsesAll, nextAfter, List.foldl_nil]
  split
  · rename_i hlt
    constructor
    · rintro ⟨⟩
    · rintro ⟨hle, -⟩
      omega
  · rename_i hle
    rw [Option.map_eq_none_iff, hall]
    simp only [List.not_mem_nil, false_and, exists_false, or_false]
    exact (and_iff_right (by omega)).symm

/-- A named value counts as used by its placeholder. -/
theorem usedBy_getElem {p : PreparedStatement} {used : List Bool}
    (hused : used.length = p.named.length) {name : String} {j : Nat} (hj : j < p.named.length) :
    (p.usedBy used (.named name))[j]? = some true ↔ used[j]? = some true ∨
      p.named.findIdx? (fun entry => entry.1 = name) = some j := by
  rw [PreparedStatement.usedBy]
  cases p.named.findIdx? fun entry => decide (entry.1 = name) with
  | none => simp
  | some k =>
      dsimp only
      rw [List.getElem?_set, Option.some.injEq]
      constructor
      · intro hset
        split at hset
        · rename_i hsame
          exact .inr hsame
        · exact .inl hset
      · intro hset
        split
        · rw [if_pos (by omega)]
        · rename_i hother
          exact hset.resolve_right hother

theorem usesAll_cons {p : PreparedStatement} {next : Nat} {used : List Bool} {ms : List Mark}
    (hused : used.length = p.named.length) (m : Mark) :
    UsesAll p next used (m :: ms) ↔ UsesAll p (m.next next) (p.usedBy used m) ms := by
  rw [UsesAll, UsesAll, nextAfter, nextAfter, List.foldl_cons]
  refine and_congr_right fun _ => forall₂_congr fun j hj => ?_
  cases m with
  | positional k => simp [PreparedStatement.usedBy]
  | named name =>
      rw [usedBy_getElem hused hj, or_assoc]
      simp only [List.mem_cons, Mark.named.injEq, or_and_right, exists_or, exists_eq_left]

theorem usedBy_length {p : PreparedStatement} {used : List Bool} (m : Mark) :
    (p.usedBy used m).length = used.length := by
  cases m with
  | positional k => rfl
  | named name =>
      rw [PreparedStatement.usedBy]
      split
      · rfl
      · exact List.length_set

/-- One placeholder before some that are filled. -/
theorem behind_ok_iff {p : PreparedStatement} {m : Mark} {more : Except Error (List Char)}
    {after rest text : List Char} {fills uses uses' : Prop}
    (hmore : ∀ text, more = .ok text ↔ fills ∧ uses' ∧ text = rest) (huses : uses ↔ uses') :
    behind (p.literalFor m) (more.map (after ++ ·)) = .ok text ↔
      ((∃ literal, p.literalFor m = .ok literal) ∧ fills) ∧ uses ∧
        text = p.written m ++ after ++ rest := by
  rw [PreparedStatement.written, huses]
  cases p.literalFor m with
  | error e =>
      constructor
      · rintro ⟨⟩
      · rintro ⟨⟨⟨literal, hliteral⟩, -⟩, -⟩
        cases hliteral
  | ok literal =>
      constructor
      · intro h
        obtain ⟨_, hliteral, h⟩ := bind_eq_ok h
        cases hliteral
        obtain ⟨_, hmapped, h⟩ := bind_eq_ok h
        obtain ⟨t, ht, rfl⟩ := map_eq_ok hmapped
        obtain ⟨hfills, huses', rfl⟩ := (hmore t).mp ht
        cases h
        exact ⟨⟨⟨literal, rfl⟩, hfills⟩, huses', by rw [List.append_assoc]⟩
      · rintro ⟨⟨-, hfills⟩, huses', rfl⟩
        rw [(hmore rest).mpr ⟨hfills, huses', rfl⟩, List.append_assoc]
        rfl

/-- Filling the pieces of a template succeeds when every placeholder has its
literal and everything bound is used, and then writes the literals. -/
theorem fillMarks_ok_iff {p : PreparedStatement} {next : Nat} {used : List Bool}
    (hused : used.length = p.named.length) {rest : List (Mark × List Char)} {text : List Char} :
    fillMarks p next used rest = .ok text ↔
      (∀ m ∈ rest.map Prod.fst, ∃ literal, p.literalFor m = .ok literal) ∧
        UsesAll p next used (rest.map Prod.fst) ∧
        text = rest.flatMap fun piece => p.written piece.1 ++ piece.2 := by
  induction rest generalizing next used text with
  | nil =>
      rw [fillMarks, List.map_nil, ← unusedError_none_iff hused]
      cases unusedError p next used with
      | none => simp [eq_comm]
      | some e => simp
  | cons piece rest ih =>
      obtain ⟨m, after⟩ := piece
      rw [List.map_cons, List.forall_mem_cons, List.flatMap_cons, fillMarks]
      have hlength : (p.usedBy used m).length = p.named.length := (usedBy_length m).trans hused
      exact behind_ok_iff (fun _ => ih hlength) (usesAll_cons hused m)

/-! ### The numbers of the positional placeholders -/

namespace Template

/-- How many `?` there are. -/
def questionMarks (t : Template) : Nat := t.marks.countP fun m => m matches .positional _

end Template

/-- Placeholders that take the positions from one on, in order. -/
def NumberedFrom (next : Nat) (ms : List Mark) : Prop :=
  nextAfter next ms = next + ms.countP (fun m => m matches .positional _) ∧
    ∀ k, .positional k ∈ ms ↔ next ≤ k ∧ k < nextAfter next ms

theorem numbered_nil (next : Nat) : NumberedFrom next [] := by
  refine ⟨rfl, fun k => ?_⟩
  simp [nextAfter]

theorem numbered_positional {next : Nat} {ms : List Mark} (h : NumberedFrom (next + 1) ms) :
    NumberedFrom next (.positional next :: ms) := by
  have hnext : nextAfter next (.positional next :: ms) = nextAfter (next + 1) ms := rfl
  have hle := h.1
  refine ⟨?_, fun k => ?_⟩
  · rw [hnext, h.1, List.countP_cons_of_pos rfl]
    omega
  · rw [hnext, List.mem_cons, h.2, Mark.positional.injEq]
    omega

theorem numbered_named {next : Nat} {ms : List Mark} (h : NumberedFrom next ms) (name : String) :
    NumberedFrom next (.named name :: ms) := by
  refine ⟨?_, fun k => ?_⟩
  · rw [List.countP_cons_of_neg (by simp)]
    exact h.1
  · rw [List.mem_cons, h.2]
    simp [nextAfter, Mark.next]

/-- The positional placeholders of a template are numbered in order. -/
theorem templateLoop_numbered {fuel : Nat} {inString : Bool} {next : Nat} {cs : List Char} :
    NumberedFrom next (templateLoop fuel inString next cs).marks := by
  induction fuel generalizing inString next cs with
  | zero => exact numbered_nil next
  | succ fuel ih =>
      cases cs with
      | nil => exact numbered_nil next
      | cons c cs =>
          cases inString with
          | true =>
              simp only [templateLoop]
              split
              · split
                · exact ih
                · exact ih
              · exact ih
          | false =>
              rw [templateLoop]
              split
              · exact ih
              split
              · exact numbered_positional ih
              split
              · exact numbered_named ih _
              · exact ih

theorem positional_mem_template {sql : List Char} {k : Nat} :
    .positional k ∈ (template sql).marks ↔ k < (template sql).questionMarks := by
  obtain ⟨hnext, hmem⟩ : NumberedFrom 0 (template sql).marks := templateLoop_numbered
  rw [hmem, hnext, Template.questionMarks]
  omega

/-! ### Expansion after a run -/

/-- When a statement expands, and to what. -/
theorem expand_ok_iff {p : PreparedStatement} {text : List Char} :
    p.expand = .ok text ↔ p.bindError = none ∧
      (∀ m ∈ (template p.sql).marks, ∃ literal, p.literalFor m = .ok literal) ∧
      p.positional.length ≤ (template p.sql).questionMarks ∧
      (∀ k < p.named.length, ∃ name, .named name ∈ (template p.sql).marks ∧
        p.named.findIdx? (fun entry => entry.1 = name) = some k) ∧
      text = (template p.sql).write p.written := by
  obtain ⟨hnext, -⟩ : NumberedFrom 0 (template p.sql).marks := templateLoop_numbered
  rw [Nat.zero_add] at hnext
  have hunused : ∀ k : Nat, (List.replicate p.named.length false)[k]? ≠ some true := by
    intro k hk
    rw [List.getElem?_replicate] at hk
    split at hk <;> cases hk
  have hlength : (List.replicate p.named.length false).length = p.named.length :=
    List.length_replicate
  have hfill : ∀ more, fillMarks p 0 (List.replicate p.named.length false) (template p.sql).rest =
      .ok more ↔ _ := fun more => fillMarks_ok_iff hlength
  rw [expand_eq]
  cases herror : p.bindError with
  | some e =>
      constructor
      · rintro ⟨⟩
      · rintro ⟨⟨⟩, -⟩
  | none =>
      rw [← Template.marks, UsesAll, hnext, ← Template.questionMarks] at hfill
      simp only [hunused, false_or] at hfill
      constructor
      · intro h
        obtain ⟨more, hmore, rfl⟩ := map_eq_ok h
        obtain ⟨hliterals, ⟨hle, hused⟩, rfl⟩ := (hfill more).mp hmore
        exact ⟨rfl, hliterals, hle, hused, rfl⟩
      · rintro ⟨-, hliterals, hle, hused, rfl⟩
        dsimp only
        rw [Template.fill, (hfill _).mpr ⟨hliterals, ⟨hle, hused⟩, rfl⟩]
        rfl

/-- Where no name is bound twice, the entry of a name is found under it. -/
theorem findIdx_of_nodup {p : PreparedStatement} (hdistinct : p.names.Nodup) {k : Nat}
    {name : String} {v : Value} (hk : p.named[k]? = some (name, v)) :
    p.named.findIdx? (fun entry => entry.1 = name) = some k := by
  obtain ⟨hlt, hget⟩ := List.getElem?_eq_some_iff.mp hk
  rw [List.findIdx?_eq_some_iff_getElem]
  refine ⟨hlt, by simp [hget], ?_⟩
  intro j hj
  have hlength : p.names.length = p.named.length := by simp [PreparedStatement.names]
  have hjn : j < p.names.length := by omega
  have hkn : k < p.names.length := by omega
  have hne : p.names[j] ≠ p.names[k] := by
    intro heq
    have hsame := (hdistinct.getElem_inj_iff).mp heq
    omega
  simpa [PreparedStatement.names, hget] using hne

/-- What expands has no name bound twice: the second entry would be left over. -/
theorem nodup_of_expand {p : PreparedStatement} {text : List Char} (h : p.expand = .ok text) :
    p.names.Nodup := by
  obtain ⟨-, -, -, hused, -⟩ := expand_ok_iff.mp h
  refine List.pairwise_iff_getElem.mpr fun i j hi hj hij => ?_
  rw [PreparedStatement.names, List.length_map] at hi hj
  obtain ⟨name, -, hindex⟩ := hused j hj
  obtain ⟨hlt, hname, hfirst⟩ := List.findIdx?_eq_some_iff_getElem.mp hindex
  have hbefore : p.named[i].1 ≠ name := by simpa using hfirst i hij
  have hsame : p.named[j].1 = name := by simpa using hname
  simpa [PreparedStatement.names, hsame] using hbefore

theorem literalFor_missing {p : PreparedStatement} {k : Nat} (hk : ¬k < p.positional.length)
    {literal : List Char} : p.literalFor (.positional k) ≠ .ok literal := by
  rw [PreparedStatement.literalFor, List.getElem?_eq_none (by omega)]
  rintro ⟨⟩

namespace Bound

variable {sql : String} {calls : List BindCall} {p : PreparedStatement} (h : Bound sql calls p)
include h

theorem literalFor_positional {k : Nat} (hk : k < p.positional.length) :
    p.literalFor (.positional k) = renderLiteral ((latest calls (.positional k)).getD .NUL) := by
  rw [PreparedStatement.literalFor, h.positional k hk]

theorem literalFor_named (name : String) : p.literalFor (.named name) =
    match latest calls (.named name) with
    | some v => renderLiteral v
    | none => .ok (Mark.named name).text := by
  rw [PreparedStatement.literalFor]
  cases hvalue : latest calls (.named name) with
  | some v =>
      obtain ⟨k, hk⟩ := List.mem_iff_getElem?.mp ((h.named name v).mpr hvalue)
      rw [findIdx_of_nodup h.distinct hk]
      dsimp only
      rw [hk]
      rfl
  | none =>
      have hnone : p.named.findIdx? (fun entry => decide (entry.1 = name)) = none := by
        rw [List.findIdx?_eq_none_iff]
        intro entry hentry
        rw [decide_eq_false_iff_not]
        rintro rfl
        have hsome := (h.named entry.1 entry.2).mp hentry
        rw [hvalue] at hsome
        cases hsome
      rw [hnone]

end Bound

/-! ### Exact binding -/

/-- The bindings are those of a template: its positions, no name that it does
not have, and values that can be written. -/
structure BindsExactly (sql : String) (calls : List BindCall) : Prop where
  indices : ∀ i v, .index i v ∈ calls → 1 ≤ i
  positional : ∀ i : Int, (∃ v, .index i v ∈ calls) ↔
    1 ≤ i ∧ i ≤ (template sql.toList).questionMarks
  named : ∀ name, (∃ v, .name name v ∈ calls) → .named name ∈ (template sql.toList).marks
  literals : ∀ m v, latest calls m = some v → ∃ text, renderLiteral v = .ok text

/-- No position below one that is bound is left out. -/
def NoGap (calls : List BindCall) : Prop :=
  ∀ i v, .index i v ∈ calls → ∀ j, 1 ≤ j → j ≤ i → ∃ w, .index j w ∈ calls

/-- What is in the place of a placeholder: the value most recently bound to it,
or a name to which nothing is bound. -/
def FilledWith (calls : List BindCall) (m : Mark) (text : List Char) : Prop :=
  match latest calls m with
  | some v => renderLiteral v = .ok text
  | none => text = m.text ∧ ∃ name, m = .named name

theorem written_of_literalFor {p : PreparedStatement} {m : Mark} {text : List Char}
    (h : p.literalFor m = .ok text) : p.written m = text := by
  rw [PreparedStatement.written, h]

namespace Bound

variable {sql : String} {calls : List BindCall} {p : PreparedStatement} (h : Bound sql calls p)
include h

/-- Without gaps every position held has a value that was bound to it. -/
theorem lt_length_iff (hgap : NoGap calls) {k : Nat} :
    k < p.positional.length ↔ ∃ v, latest calls (.positional k) = some v := by
  rw [h.length, ← Option.isSome_iff_exists]
  constructor
  · rintro ⟨j, hle, hj⟩
    obtain ⟨v, hv⟩ := latest_positional_isSome.mp hj
    exact latest_positional_isSome.mpr (hgap _ v hv _ (by omega) (by omega))
  · intro hk
    exact ⟨k, le_rfl, hk⟩

theorem filledWith (hgap : NoGap calls) {m : Mark} {literal : List Char}
    (hliteral : p.literalFor m = .ok literal) : FilledWith calls m literal := by
  rw [FilledWith]
  cases m with
  | positional k =>
      by_cases hk : k < p.positional.length
      · obtain ⟨v, hv⟩ := (h.lt_length_iff hgap).mp hk
        rw [h.literalFor_positional hk, hv] at hliteral
        rw [hv]
        exact hliteral
      · exact absurd hliteral (literalFor_missing hk)
  | named name =>
      rw [h.literalFor_named] at hliteral
      cases hvalue : latest calls (.named name) with
      | some v =>
          rw [hvalue] at hliteral
          exact hliteral
      | none =>
          rw [hvalue] at hliteral
          cases hliteral
          exact ⟨rfl, name, rfl⟩

/-- A placeholder has a literal when the value bound to it has one, or when it
is a name and nothing is bound to it. -/
theorem literalFor_ok (hgap : NoGap calls)
    (hliterals : ∀ m v, latest calls m = some v → ∃ text, renderLiteral v = .ok text) {m : Mark}
    (hm : ∀ k, m = .positional k → ∃ v, latest calls (.positional k) = some v) :
    ∃ literal, p.literalFor m = .ok literal := by
  cases m with
  | positional k =>
      obtain ⟨v, hv⟩ := hm k rfl
      rw [h.literalFor_positional ((h.lt_length_iff hgap).mpr ⟨v, hv⟩), hv]
      exact hliterals _ v hv
  | named name =>
      rw [h.literalFor_named]
      cases hvalue : latest calls (.named name) with
      | some v => exact hliterals _ v hvalue
      | none => exact ⟨_, rfl⟩

/-- The entries of the named values are found in a template when the names
bound are there. -/
theorem named_used_iff {ms : List Mark} :
    (∀ k < p.named.length, ∃ name, .named name ∈ ms ∧
      p.named.findIdx? (fun entry => entry.1 = name) = some k) ↔
      ∀ name, (∃ v, .name name v ∈ calls) → .named name ∈ ms := by
  constructor
  · intro hused name hcalls
    obtain ⟨v, hv⟩ := Option.isSome_iff_exists.mp (latest_named_isSome.mpr hcalls)
    obtain ⟨k, hk⟩ := List.mem_iff_getElem?.mp ((h.named name v).mpr hv)
    obtain ⟨hlt, hget⟩ := List.getElem?_eq_some_iff.mp hk
    obtain ⟨other, hother, hfound⟩ := hused k hlt
    have hname := (List.findIdx?_eq_some_iff_getElem.mp hfound).2.1
    rw [hget, decide_eq_true_eq] at hname
    obtain rfl : name = other := hname
    exact hother
  · intro hnames k hk
    have hget := List.getElem?_eq_getElem hk
    have hvalue := (h.named p.named[k].1 p.named[k].2).mp (List.getElem_mem hk)
    refine ⟨p.named[k].1, hnames _ ?_, findIdx_of_nodup h.distinct hget⟩
    exact latest_named_isSome.mp (by rw [hvalue]; rfl)

end Bound

/-- A position that is bound, by its number. -/
theorem index_mem_iff {calls : List BindCall} {i : Int} (hi : 1 ≤ i) :
    (∃ v, .index i v ∈ calls) ↔ ∃ v, latest calls (.positional (i - 1).toNat) = some v := by
  have hindex : ((i - 1).toNat : Int) + 1 = i := by omega
  rw [← Option.isSome_iff_exists, latest_positional_isSome, hindex]

/-- Bindings without gaps expand exactly where they are those of the template,
and then each placeholder has the value most recently bound to it. -/
theorem binding_exact (sql : String) (calls : List BindCall) (hgap : NoGap calls) :
    ((∃ text, (PreparedStatement.bindAll sql calls).expand = .ok text) ↔
        BindsExactly sql calls) ∧
      ∀ text, (PreparedStatement.bindAll sql calls).expand = .ok text →
        ∃ written, text = (template sql.toList).write written ∧
          ∀ m ∈ (template sql.toList).marks, FilledWith calls m (written m) := by
  have hbound := bound_bindAll sql calls
  generalize PreparedStatement.bindAll sql calls = p at hbound
  simp only [expand_ok_iff, hbound.sql, hbound.misuse, hbound.named_used_iff]
  refine ⟨⟨?_, ?_⟩, ?_⟩
  · rintro ⟨text, hindices, hliterals, hle, hnames, -⟩
    have hmark : ∀ m v, latest calls m = some v → m ∈ (template sql.toList).marks := by
      intro m v hv
      cases m with
      | positional k =>
          have hlt := (hbound.lt_length_iff hgap).mpr ⟨v, hv⟩
          exact positional_mem_template.mpr (by omega)
      | named name => exact hnames name (latest_named_isSome.mp (by rw [hv]; rfl))
    refine ⟨hindices, ?_, hnames, ?_⟩
    · intro i
      constructor
      · rintro ⟨v, hv⟩
        have hi := hindices i v hv
        obtain ⟨w, hw⟩ := (index_mem_iff hi).mp ⟨v, hv⟩
        have hlt := positional_mem_template.mp (hmark _ w hw)
        exact ⟨hi, by omega⟩
      · rintro ⟨hi, hmarks⟩
        have hmem : .positional (i - 1).toNat ∈ (template sql.toList).marks :=
          positional_mem_template.mpr (by omega)
        obtain ⟨literal, hliteral⟩ := hliterals _ hmem
        have hlt : (i - 1).toNat < p.positional.length := by
          by_contra hge
          exact literalFor_missing hge hliteral
        exact (index_mem_iff hi).mpr ((hbound.lt_length_iff hgap).mp hlt)
    · intro m v hv
      obtain ⟨literal, hliteral⟩ := hliterals m (hmark m v hv)
      have hfilled := hbound.filledWith hgap hliteral
      rw [FilledWith, hv] at hfilled
      exact ⟨literal, hfilled⟩
  · intro hexact
    refine ⟨_, hexact.indices, ?_, ?_, hexact.named, rfl⟩
    · intro m hm
      apply hbound.literalFor_ok hgap hexact.literals
      rintro k rfl
      have hlt := positional_mem_template.mp hm
      have hcalls := (hexact.positional (k + 1)).mpr ⟨by omega, by omega⟩
      have hvalue := (index_mem_iff (by omega)).mp hcalls
      rwa [show ((k : Int) + 1 - 1).toNat = k by omega] at hvalue
    · by_contra hgt
      obtain ⟨v, hv⟩ := (hbound.lt_length_iff hgap).mp (Nat.lt_of_not_le hgt)
      have hcalls := latest_positional_isSome.mp (Option.isSome_iff_exists.mpr ⟨v, hv⟩)
      have hle := ((hexact.positional _).mp hcalls).2
      omega
  · rintro text ⟨-, hliterals, -, -, rfl⟩
    refine ⟨p.written, rfl, ?_⟩
    intro m hm
    obtain ⟨literal, hliteral⟩ := hliterals m hm
    rw [written_of_literalFor hliteral]
    exact hbound.filledWith hgap hliteral

/-- One position and one name bound, the position twice. -/
theorem binding_exact_rebound :
    NoGap [.index 1 (.N "1"), .name "n" (.BOOL true), .index 1 (.N "2")] ∧
      ((∃ text, (PreparedStatement.bindAll "a = ? and b = :n"
          [.index 1 (.N "1"), .name "n" (.BOOL true), .index 1 (.N "2")]).expand = .ok text) ↔
        BindsExactly "a = ? and b = :n"
          [.index 1 (.N "1"), .name "n" (.BOOL true), .index 1 (.N "2")]) := by
  have hgap : NoGap [.index 1 (.N "1"), .name "n" (.BOOL true), .index 1 (.N "2")] := by
    intro i v hi j hpos hle
    have hone : i = 1 := by
      simp only [List.mem_cons, BindCall.index.injEq, reduceCtorEq, List.not_mem_nil, or_false,
        false_or] at hi
      rcases hi with hi | hi <;> exact hi.1
    obtain rfl : j = 1 := by omega
    exact ⟨_, List.mem_cons_self⟩
  exact ⟨hgap, (binding_exact _ _ hgap).1⟩

/-- A map literal has what looks like a name, and expands with nothing bound. -/
theorem mapLiteral_expands : ¬((∃ text, (PreparedStatement.bindAll
      "insert into t (id, m) values (1, {k:true});" []).expand = .ok text) ↔
    BindsExactly "insert into t (id, m) values (1, {k:true});" [] ∧
      ∀ name, .named name ∈ (template "insert into t (id, m) values (1, {k:true});".toList).marks →
        ∃ v, .name name v ∈ ([] : List BindCall)) := by
  intro h
  have hexpands : (PreparedStatement.bindAll
      "insert into t (id, m) values (1, {k:true});" []).expand =
      .ok "insert into t (id, m) values (1, {k:true});".toList := by
    rfl
  obtain ⟨-, hnames⟩ := h.mp ⟨_, hexpands⟩
  obtain ⟨v, hv⟩ := hnames "true" (by decide +kernel)
  cases hv

end DdbShell
