import DdbShell.Aws.RoundTrip

/-!
When a value of the SDK is the value that was written: every text as it is, every
key of a map bound to the value written for it, and no other key. The seam
produces such a value whenever there is one and no text has a NUL.
-/

namespace DdbShell

open Value (NulFree)

section Conveys

variable (base64Decode : String → List UInt8)

mutual

/-- The SDK's value is the written one. -/
def Conveys : Value → SdkAttributeValue → Prop
  | .S s, .STRING t => t = s
  | .N s, .NUMBER t => t = s
  | .B s, .BYTEBUFFER b => b = base64Decode (cString s)
  | .BOOL b, .BOOL c => c = b
  | .NUL, .NULLVALUE => True
  | .L vs, .ATTRIBUTE_LIST ss => ConveysList vs ss
  | .M es, .ATTRIBUTE_MAP m =>
      ConveysEntries es m ∧ ∀ k ∈ m.map Prod.fst, k ∈ es.map Prod.fst
  | .SS set, .STRING_SET ss | .NS set, .NUMBER_SET ss => ss = set
  | .BS set, .BYTEBUFFER_SET bs => bs = set.map fun s => base64Decode (cString s)
  | _, _ => False

def ConveysList : List Value → List SdkAttributeValue → Prop
  | [], [] => True
  | v :: vs, s :: ss => Conveys v s ∧ ConveysList vs ss
  | _, _ => False

def ConveysEntries : List (String × Value) → SdkItem → Prop
  | [], _ => True
  | (name, v) :: es, m => (∃ s, m.lookup name = some s ∧ Conveys v s) ∧ ConveysEntries es m

end

/-- Every entry is bound in the map, and nothing else is. -/
def ConveysItem (es : List (String × Value)) (m : SdkItem) : Prop :=
  (∀ e ∈ es, ∃ s, m.lookup e.1 = some s ∧ Conveys base64Decode e.2 s) ∧
    ∀ k ∈ m.map Prod.fst, k ∈ es.map Prod.fst

/-- One value of the SDK is both. -/
def Agree (v w : Value) : Prop := ∃ s, Conveys base64Decode v s ∧ Conveys base64Decode w s

end Conveys

variable {base64Decode : String → List UInt8}

theorem conveysList_iff {vs : List Value} {ss : List SdkAttributeValue} :
    ConveysList base64Decode vs ss ↔ List.Forall₂ (Conveys base64Decode) vs ss := by
  induction vs generalizing ss with
  | nil => cases ss <;> simp [ConveysList]
  | cons v vs ih => cases ss <;> simp [ConveysList, ih]

theorem conveysEntries_iff {es : List (String × Value)} {m : SdkItem} :
    ConveysEntries base64Decode es m ↔
      ∀ e ∈ es, ∃ s, m.lookup e.1 = some s ∧ Conveys base64Decode e.2 s := by
  induction es with
  | nil => simp [ConveysEntries]
  | cons e es ih => rw [ConveysEntries, ih, List.forall_mem_cons]

theorem conveys_list {vs : List Value} {s : SdkAttributeValue} :
    Conveys base64Decode (.L vs) s ↔
      ∃ ss, s = .ATTRIBUTE_LIST ss ∧ List.Forall₂ (Conveys base64Decode) vs ss := by
  cases s <;> simp [Conveys, conveysList_iff]

theorem conveys_map {es : List (String × Value)} {s : SdkAttributeValue} :
    Conveys base64Decode (.M es) s ↔
      ∃ m, s = .ATTRIBUTE_MAP m ∧ ConveysItem base64Decode es m := by
  cases s <;> simp [Conveys, ConveysItem, conveysEntries_iff]

/-- Nothing below it, so the SDK's value is determined. -/
theorem conveys_leaf {v : Value} (hflat : v.flat = true)
    (hfree : ∀ s ∈ v.texts, nulFree s = true) {s : SdkAttributeValue} :
    Conveys base64Decode v s ↔ s = toSdkValue base64Decode v := by
  cases v with
  | L vs | M es => cases hflat
  | S t | N t =>
      have ht : cString t = t := cString_eq (hfree t (List.mem_singleton_self t))
      cases s <;> simp [Conveys, toSdkValue, ht]
  | SS set | NS set =>
      have hset : set.map cString = set := map_cString hfree
      cases s <;> simp [Conveys, toSdkValue, hset]
  | B t | BOOL b | NUL | BS set => cases s <;> simp [Conveys, toSdkValue]

/-! ### The item of the seam -/

theorem mem_names_toSdkItem {es : List (String × Value)} {k : String}
    (h : k ∈ (toSdkItem base64Decode es).map Prod.fst) : ∃ e ∈ es, cString e.1 = k := by
  obtain ⟨e, he, rfl⟩ := List.mem_map.mp h
  have hentry := SortedMap.mem_ofEntries he
  rw [toSdkEntries_eq, List.mem_map] at hentry
  obtain ⟨f, hf, rfl⟩ := hentry
  exact ⟨f, hf, rfl⟩

theorem lookup_toSdkItem_some {es : List (String × Value)} {k : String} {s : SdkAttributeValue}
    (h : (toSdkItem base64Decode es).lookup k = some s) :
    ∃ e ∈ es, cString e.1 = k ∧ s = toSdkValue base64Decode e.2 := by
  rw [toSdkItem, SortedMap.lookup_ofEntries] at h
  obtain ⟨before, after, hsplit, -⟩ := List.lookup_eq_some_iff.mp h
  have hmem : (k, s) ∈ toSdkEntries base64Decode es := by simp [hsplit]
  rw [toSdkEntries_eq, List.mem_map] at hmem
  obtain ⟨e, he, hentry⟩ := hmem
  obtain ⟨hname, hvalue⟩ := Prod.mk.inj hentry
  exact ⟨e, he, hname, hvalue.symm⟩

/-- With names that pass unchanged, a name is bound to what its first entry
becomes. -/
theorem lookup_toSdkItem {es : List (String × Value)} (hfree : ∀ e ∈ es, nulFree e.1 = true)
    {k : String} (hk : k ∈ es.map Prod.fst) :
    ∃ e ∈ es, e.1 = k ∧
      (toSdkItem base64Decode es).lookup k = some (toSdkValue base64Decode e.2) := by
  cases hlookup : (toSdkItem base64Decode es).lookup k with
  | none =>
      obtain ⟨e, he, rfl⟩ := List.mem_map.mp hk
      rw [toSdkItem, SortedMap.lookup_ofEntries, List.lookup_eq_none_iff, toSdkEntries_eq,
        List.forall_mem_map] at hlookup
      have hne := hlookup e he
      rw [cString_eq (hfree e he)] at hne
      simp at hne
  | some s =>
      obtain ⟨e, he, hname, rfl⟩ := lookup_toSdkItem_some hlookup
      rw [cString_eq (hfree e he)] at hname
      exact ⟨e, he, hname, rfl⟩

/-! ### What the seam can carry -/

theorem exists_of_forall₂ {α β : Type} {R : α → β → Prop} {as : List α} {bs : List β}
    (h : List.Forall₂ R as bs) : ∀ a ∈ as, ∃ b ∈ bs, R a b := by
  induction h with
  | nil => exact fun _ hmem => absurd hmem List.not_mem_nil
  | cons hab hrest ih =>
      rename_i a b as bs
      intro c hc
      rcases List.mem_cons.mp hc with rfl | hc
      · exact ⟨b, List.mem_cons_self, hab⟩
      · obtain ⟨d, hd, hcd⟩ := ih c hc
        exact ⟨d, List.mem_cons_of_mem b hd, hcd⟩

theorem texts_of_conveys_leaf {v : Value} (hflat : v.flat = true) {u : Value}
    (h : Conveys base64Decode v (toSdkValue base64Decode u)) :
    ∀ s ∈ v.texts, nulFree s = true := by
  cases v with
  | L vs | M es => cases hflat
  | S s | N s =>
      have hcut : ∃ t, cString t = s := by
        cases u <;> first | exact ⟨_, h⟩ | cases h
      obtain ⟨t, rfl⟩ := hcut
      exact List.forall_mem_singleton.mpr (nulFree_cString t)
  | SS set | NS set =>
      have hcut : ∃ ts : List String, ts.map cString = set := by
        cases u <;> first | exact ⟨_, h⟩ | cases h
      obtain ⟨ts, rfl⟩ := hcut
      exact List.forall_mem_map.mpr fun t _ => nulFree_cString t
  | B s | BOOL b | NUL | BS set => exact nofun

/-- Whatever the seam makes of a value conveys only texts without a NUL. -/
theorem nulFree_of_conveys {v : Value} (u : Value)
    (h : Conveys base64Decode v (toSdkValue base64Decode u)) : v.NulFree := by
  induction v using Value.inductBelow generalizing u with
  | list vs ih =>
      obtain ⟨ss, hss, hall⟩ := conveys_list.mp h
      rw [Value.nulFree_list]
      cases u with
      | L us =>
          rw [toSdkValue, toSdkList_eq] at hss
          cases hss
          intro v hv
          obtain ⟨u, -, hu⟩ := exists_of_forall₂ (List.forall₂_map_right_iff.mp hall) v hv
          exact ih v hv u hu
      | _ => cases hss
  | map es ih =>
      obtain ⟨m, hm, hentries, -⟩ := conveys_map.mp h
      rw [Value.nulFree_map]
      cases u with
      | M us =>
          rw [toSdkValue, ← toSdkItem] at hm
          cases hm
          constructor
          · intro e he
            obtain ⟨s, hs, -⟩ := hentries e he
            obtain ⟨f, -, hname, -⟩ := lookup_toSdkItem_some hs
            rw [← hname]
            exact nulFree_cString f.1
          · intro e he
            obtain ⟨s, hs, hconveys⟩ := hentries e he
            obtain ⟨f, -, -, rfl⟩ := lookup_toSdkItem_some hs
            exact ih e he f.2 hconveys
      | _ => cases hm
  | leaf v hflat =>
      rw [Value.nulFree_leaf hflat]
      exact texts_of_conveys_leaf hflat h

theorem mem_names_of_lookup {m : SdkItem} {k : String} {s : SdkAttributeValue}
    (h : m.lookup k = some s) : k ∈ m.map Prod.fst := by
  obtain ⟨before, after, hsplit, -⟩ := List.lookup_eq_some_iff.mp h
  simp [hsplit]

/-- The seam does as well as any value: what agrees with a value without a NUL
agrees with what becomes of it. -/
theorem conveys_toSdkValue {v : Value} (hfree : v.NulFree) {s : SdkAttributeValue}
    (hv : Conveys base64Decode v s) {w : Value} (hw : Conveys base64Decode w s) :
    Conveys base64Decode w (toSdkValue base64Decode v) := by
  induction v using Value.inductBelow generalizing s w with
  | list vs ih =>
      rw [Value.nulFree_list] at hfree
      obtain ⟨ss, rfl, hall⟩ := conveys_list.mp hv
      cases w with
      | L ws =>
          obtain ⟨ss', hss, hall'⟩ := conveys_list.mp hw
          cases hss
          rw [toSdkValue, toSdkList_eq]
          refine conveys_list.mpr ⟨_, rfl, ?_⟩
          rw [List.forall₂_map_right_iff]
          clear hv hw
          induction hall generalizing ws with
          | nil =>
              cases hall'
              exact .nil
          | cons head tail ih' =>
              cases hall' with
              | cons head' tail' =>
                  refine .cons (ih _ List.mem_cons_self (hfree _ List.mem_cons_self) head head') ?_
                  exact ih' (fun v hv => ih v (List.mem_cons_of_mem _ hv))
                    (fun v hv => hfree v (List.mem_cons_of_mem _ hv)) _ tail'
      | _ => cases hw
  | map es ih =>
      rw [Value.nulFree_map] at hfree
      obtain ⟨m, rfl, hentries, hnames⟩ := conveys_map.mp hv
      cases w with
      | M fs =>
          obtain ⟨m', hm, hentries', hnames'⟩ := conveys_map.mp hw
          cases hm
          rw [toSdkValue, ← toSdkItem]
          refine conveys_map.mpr ⟨_, rfl, ?_, ?_⟩
          · intro f hf
            obtain ⟨s, hs, hconveys⟩ := hentries' f hf
            obtain ⟨e, he, hname, hlookup⟩ : ∃ e ∈ es, e.1 = f.1 ∧
                (toSdkItem base64Decode es).lookup f.1 = some (toSdkValue base64Decode e.2) :=
              lookup_toSdkItem hfree.1 (hnames f.1 (mem_names_of_lookup hs))
            obtain ⟨s', hs', hconveys'⟩ := hentries e he
            rw [hname, hs] at hs'
            cases hs'
            exact ⟨_, hlookup, ih e he (hfree.2 e he) hconveys' hconveys⟩
          · intro k hk
            obtain ⟨e, he, rfl⟩ := mem_names_toSdkItem hk
            rw [cString_eq (hfree.1 e he)]
            obtain ⟨s, hs, -⟩ := hentries e he
            exact hnames' e.1 (mem_names_of_lookup hs)
      | _ => cases hw
  | leaf v hflat =>
      rw [Value.nulFree_leaf hflat] at hfree
      rwa [(conveys_leaf hflat hfree).mp hv] at hw

/-- The seam binds every entry exactly if no text has a NUL and entries with one
name agree. -/
theorem conveysItem_toSdkItem_iff (es : List (String × Value)) :
    ConveysItem base64Decode es (toSdkItem base64Decode es) ↔
      Value.NulFree (.M es) ∧
        ∀ e ∈ es, ∀ f ∈ es, e.1 = f.1 → Agree base64Decode e.2 f.2 := by
  constructor
  · intro h
    constructor
    · apply nulFree_of_conveys (.M es)
      rw [toSdkValue, ← toSdkItem]
      exact conveys_map.mpr ⟨_, rfl, h⟩
    · intro e he f hf hname
      obtain ⟨s, hs, hconveys⟩ := h.1 e he
      obtain ⟨t, ht, hconveys'⟩ := h.1 f hf
      rw [← hname, hs] at ht
      cases ht
      exact ⟨s, hconveys, hconveys'⟩
  · rintro ⟨hfree, hagree⟩
    rw [Value.nulFree_map] at hfree
    constructor
    · intro f hf
      obtain ⟨e, he, hname, hlookup⟩ : ∃ e ∈ es, e.1 = f.1 ∧
          (toSdkItem base64Decode es).lookup f.1 = some (toSdkValue base64Decode e.2) :=
        lookup_toSdkItem hfree.1 (List.mem_map_of_mem hf)
      obtain ⟨s, hconveys, hconveys'⟩ := hagree e he f hf hname
      exact ⟨_, hlookup, conveys_toSdkValue (hfree.2 e he) hconveys hconveys'⟩
    · intro k hk
      obtain ⟨e, he, rfl⟩ := mem_names_toSdkItem hk
      rw [cString_eq (hfree.1 e he)]
      exact List.mem_map_of_mem he

end DdbShell
