import DdbShell.Aws.SdkValue
import DdbShell.Lib.Base64
import DdbShell.Reordered
import Mathlib.Data.List.Forall2

/-!
Values on their way to the SDK and back. Only a NUL is lost: it ends every
string, number, set element and map key that has one.
-/

namespace DdbShell

namespace Value

/-- The texts of a value that pass through C strings as they are. -/
def texts : Value → List String
  | .S s | .N s => [s]
  | .SS set | .NS set => set
  | .M es => es.map Prod.fst
  | _ => []

/-- The texts of a value that stand for bytes. -/
def binary : Value → List String
  | .B s => [s]
  | .BS set => set
  | _ => []

def NulFree (v : Value) : Prop := v.Everywhere fun u => ∀ s ∈ u.texts, nulFree s = true

def CanonicalBinary (v : Value) : Prop :=
  v.Everywhere fun u => ∀ s ∈ u.binary, Base64.Canonical s

theorem nulFree_list {vs : List Value} : NulFree (.L vs) ↔ ∀ v ∈ vs, v.NulFree := by
  rw [NulFree, everywhere_list]
  simp [texts, NulFree]

theorem nulFree_map {es : List (String × Value)} :
    NulFree (.M es) ↔ (∀ e ∈ es, nulFree e.1 = true) ∧ ∀ e ∈ es, e.2.NulFree := by
  rw [NulFree, everywhere_map]
  simp [texts, NulFree]

theorem nulFree_leaf {v : Value} (h : v.flat = true) :
    NulFree v ↔ ∀ s ∈ v.texts, nulFree s = true := by
  rw [NulFree, everywhere_leaf h]

theorem Reordered.nulFree {v w : Value} (h : Reordered v w) (hv : v.NulFree) : w.NulFree := by
  apply h.everywhere ⟨?_, ?_⟩ hv
  · intro vs ws _ s hs
    cases hs
  · intro es fs hnames hes s hs
    exact hes s (hnames.mem_iff.mpr hs)

theorem canonicalBinary_list {vs : List Value} :
    CanonicalBinary (.L vs) ↔ ∀ v ∈ vs, v.CanonicalBinary := by
  rw [CanonicalBinary, everywhere_list]
  simp [binary, CanonicalBinary]

theorem canonicalBinary_map {es : List (String × Value)} :
    CanonicalBinary (.M es) ↔ ∀ e ∈ es, e.2.CanonicalBinary := by
  rw [CanonicalBinary, everywhere_map]
  simp [binary, CanonicalBinary]

theorem canonicalBinary_leaf {v : Value} (h : v.flat = true) :
    CanonicalBinary v ↔ ∀ s ∈ v.binary, Base64.Canonical s := by
  rw [CanonicalBinary, everywhere_leaf h]

end Value

open Value (Reordered DistinctNames CanonicalBinary NulFree)

variable {base64Decode : String → List UInt8} {base64Encode : List UInt8 → String}

/-! ### There and back -/

theorem fromSdk_toSdk_list (vs : List Value) :
    fromSdkValue base64Encode (toSdkValue base64Decode (.L vs)) =
      .L (vs.map fun v => fromSdkValue base64Encode (toSdkValue base64Decode v)) := by
  rw [toSdkValue, fromSdkValue, toSdkList_eq, fromSdkList_eq, List.map_map]
  rfl

theorem fromSdk_toSdk_map (es : List (String × Value)) :
    fromSdkValue base64Encode (toSdkValue base64Decode (.M es)) =
      .M (fromSdkItem base64Encode (toSdkItem base64Decode es)) := by
  rw [toSdkValue, fromSdkValue, toSdkItem]

theorem toSdkItem_perm {es : List (String × Value)} (hnodup : (es.map Prod.fst).Nodup)
    (hfree : ∀ e ∈ es, nulFree e.1 = true) :
    (toSdkItem base64Decode es).Perm
      (es.map fun e => (e.1, toSdkValue base64Decode e.2)) := by
  have hentries : toSdkEntries base64Decode es =
      es.map fun e => (e.1, toSdkValue base64Decode e.2) := by
    rw [toSdkEntries_eq]
    exact List.map_congr_left fun e he => by rw [cString_eq (hfree e he)]
  rw [toSdkItem, hentries]
  apply SortedMap.ofEntries_perm
  rw [List.map_map]
  exact hnodup

/-- An item comes back in the order of its names. -/
theorem fromSdk_toSdk_item_perm {es : List (String × Value)} (hnodup : (es.map Prod.fst).Nodup)
    (hfree : ∀ e ∈ es, nulFree e.1 = true) :
    (fromSdkItem base64Encode (toSdkItem base64Decode es)).Perm
      (es.map fun e => (e.1, fromSdkValue base64Encode (toSdkValue base64Decode e.2))) := by
  rw [fromSdkItem_eq]
  have hsdk : (toSdkItem base64Decode es).Perm
      (es.map fun e => (e.1, toSdkValue base64Decode e.2)) := toSdkItem_perm hnodup hfree
  have hperm := hsdk.map fun e => (cString e.1, fromSdkValue base64Encode e.2)
  rw [List.map_map] at hperm
  refine hperm.trans (.of_eq ?_)
  exact List.map_congr_left fun e he => by
    simp only [Function.comp_apply, cString_eq (hfree e he)]

theorem fromSdk_toSdk_leaf
    (hbase64 : ∀ s, Base64.Canonical s → base64Encode (base64Decode s) = s) {v : Value}
    (hflat : v.flat = true) (hbinary : ∀ s ∈ v.binary, Base64.Canonical s)
    (hfree : ∀ s ∈ v.texts, nulFree s = true) :
    fromSdkValue base64Encode (toSdkValue base64Decode v) = v := by
  have hbytes : ∀ s, Base64.Canonical s →
      cString (base64Encode (base64Decode (cString s))) = s := by
    intro s hs
    have hnul : cString s = s := cString_eq (by
      rw [nulFree, List.all_eq_true]
      intro c hc
      rw [decide_eq_true_eq]
      rintro rfl
      exact hs.nul_not_mem hc)
    rw [hnul, hbase64 s hs, hnul]
  cases v with
  | S s => simp only [toSdkValue, fromSdkValue, cString_eq (hfree s (List.mem_singleton_self s))]
  | N s => simp only [toSdkValue, fromSdkValue, cString_eq (hfree s (List.mem_singleton_self s))]
  | B s => rw [toSdkValue, fromSdkValue, hbytes s (hbinary s (List.mem_singleton_self s))]
  | BOOL boolean => rfl
  | NUL => rfl
  | L vs => cases hflat
  | M es => cases hflat
  | SS set | NS set =>
      have hset : set.map cString = set := map_cString hfree
      rw [toSdkValue, fromSdkValue, hset, hset]
  | BS set =>
      rw [toSdkValue, fromSdkValue, List.map_map]
      have hsame : set.map (cString ∘ base64Encode ∘ base64Decode ∘ cString) = set.map id :=
        List.map_congr_left fun s hs => hbytes s (hbinary s hs)
      rw [List.map_id] at hsame
      exact congrArg Value.BS hsame

/-- Without a NUL everything comes back. -/
theorem fromSdk_toSdk_reordered
    (hbase64 : ∀ s, Base64.Canonical s → base64Encode (base64Decode s) = s) (v : Value)
    (hdistinct : v.DistinctNames) (hbinary : v.CanonicalBinary) (hfree : v.NulFree) :
    Reordered (fromSdkValue base64Encode (toSdkValue base64Decode v)) v := by
  induction v using Value.inductBelow with
  | list vs ih =>
      rw [Value.distinctNames_list] at hdistinct
      rw [Value.canonicalBinary_list] at hbinary
      rw [Value.nulFree_list] at hfree
      rw [fromSdk_toSdk_list]
      apply Reordered.list _ []
      rw [List.forall₂_map_left_iff, List.forall₂_same]
      intro v hv
      exact ih v hv (hdistinct v hv) (hbinary v hv) (hfree v hv)
  | map es ih =>
      rw [Value.distinctNames_map] at hdistinct
      rw [Value.canonicalBinary_map] at hbinary
      rw [Value.nulFree_map] at hfree
      rw [fromSdk_toSdk_map]
      apply (Reordered.entries (fromSdk_toSdk_item_perm hdistinct.1 hfree.1)).trans
      apply Reordered.map _ []
      rw [List.forall₂_map_left_iff, List.forall₂_same]
      intro e he
      exact ⟨rfl, ih e he (hdistinct.2 e he) (hbinary e he) (hfree.2 e he)⟩
  | leaf v hflat =>
      rw [fromSdk_toSdk_leaf hbase64 hflat ((Value.canonicalBinary_leaf hflat).mp hbinary)
        ((Value.nulFree_leaf hflat).mp hfree)]
      exact .refl v

/-- What comes back has no NUL. -/
theorem nulFree_fromSdk_toSdk (v : Value) :
    (fromSdkValue base64Encode (toSdkValue base64Decode v)).NulFree := by
  induction v using Value.inductBelow with
  | list vs ih =>
      rw [fromSdk_toSdk_list, Value.nulFree_list, List.forall_mem_map]
      exact ih
  | map es ih =>
      rw [fromSdk_toSdk_map, Value.nulFree_map, fromSdkItem_eq, List.forall_mem_map,
        List.forall_mem_map]
      constructor
      · intro e _
        exact nulFree_cString e.1
      · intro e he
        have hentry := SortedMap.mem_ofEntries he
        rw [toSdkEntries_eq, List.mem_map] at hentry
        obtain ⟨f, hf, rfl⟩ := hentry
        exact ih f hf
  | leaf v hflat =>
      have hset : ∀ set : List String, ∀ s ∈ (set.map cString).map cString, nulFree s = true := by
        intro set
        rw [List.map_map, List.forall_mem_map]
        exact fun s _ => nulFree_cString _
      cases v with
      | S s | N s =>
          rw [toSdkValue, fromSdkValue, Value.nulFree_leaf rfl]
          simpa [Value.texts] using nulFree_cString _
      | L vs | M es => cases hflat
      | SS set | NS set =>
          rw [toSdkValue, fromSdkValue, Value.nulFree_leaf rfl]
          exact hset set
      | B s | BOOL boolean | NUL | BS set =>
          rw [toSdkValue, fromSdkValue, Value.nulFree_leaf rfl]
          exact nofun

/-! ### The round trip -/

/-- A value comes back, up to the order of map entries, exactly when no text in
it has a NUL, and so does an item. -/
theorem sdk_round_trip_iff
    (hbase64 : ∀ s, Base64.Canonical s → base64Encode (base64Decode s) = s) :
    (∀ v : Value, v.DistinctNames → v.CanonicalBinary →
      (Reordered (fromSdkValue base64Encode (toSdkValue base64Decode v)) v ↔ v.NulFree)) ∧
    ∀ item : ValueMap, DistinctNames (.M item) → CanonicalBinary (.M item) →
      (Reordered (.M (fromSdkItem base64Encode (toSdkItem base64Decode item))) (.M item) ↔
        NulFree (.M item)) := by
  have hvalue : ∀ v : Value, v.DistinctNames → v.CanonicalBinary →
      (Reordered (fromSdkValue base64Encode (toSdkValue base64Decode v)) v ↔ v.NulFree) := by
    intro v hdistinct hbinary
    constructor
    · intro h
      exact h.nulFree (nulFree_fromSdk_toSdk v)
    · intro h
      exact fromSdk_toSdk_reordered hbase64 v hdistinct hbinary h
  refine ⟨hvalue, ?_⟩
  intro item hdistinct hbinary
  rw [← fromSdk_toSdk_map]
  exact hvalue (.M item) hdistinct hbinary

theorem sdk_round_trip_photo :
    Reordered
        (fromSdkValue Base64.encode (toSdkValue Base64.decode
          (.L [.M [("title", .S "x"), ("photo", .B "TWFu")]])))
        (.L [.M [("title", .S "x"), ("photo", .B "TWFu")]]) ∧
      Reordered
        (.M (fromSdkItem Base64.encode (toSdkItem Base64.decode
          [("title", .S "x"), ("photo", .B "TWFu")])))
        (.M [("title", .S "x"), ("photo", .B "TWFu")]) := by
  have hphoto : Base64.Canonical "TWFu" := ⟨[77, 97, 110], rfl⟩
  have hdistinct : DistinctNames (.M [("title", .S "x"), ("photo", .B "TWFu")]) := by
    rw [Value.distinctNames_map, List.forall_mem_cons, List.forall_mem_cons]
    exact ⟨by simp, Value.distinctNames_leaf rfl, Value.distinctNames_leaf rfl, by simp⟩
  have hbinary : CanonicalBinary (.M [("title", .S "x"), ("photo", .B "TWFu")]) := by
    rw [Value.canonicalBinary_map, List.forall_mem_cons, List.forall_mem_cons,
      Value.canonicalBinary_leaf rfl, Value.canonicalBinary_leaf rfl]
    exact ⟨by simp [Value.binary], by simpa [Value.binary] using hphoto, by simp⟩
  have hfree : NulFree (.M [("title", .S "x"), ("photo", .B "TWFu")]) := by
    rw [Value.nulFree_map, List.forall_mem_cons, List.forall_mem_cons, List.forall_mem_cons,
      List.forall_mem_cons, Value.nulFree_leaf rfl, Value.nulFree_leaf rfl]
    exact ⟨⟨rfl, rfl, by simp⟩, by simp [Value.texts, nulFree], by simp [Value.texts, nulFree],
      by simp⟩
  constructor
  · refine ((sdk_round_trip_iff fun _ h => h.encode_decode).1 _ ?_ ?_).mpr ?_
    · exact Value.distinctNames_list.mpr (List.forall_mem_singleton.mpr hdistinct)
    · exact Value.canonicalBinary_list.mpr (List.forall_mem_singleton.mpr hbinary)
    · exact Value.nulFree_list.mpr (List.forall_mem_singleton.mpr hfree)
  · exact ((sdk_round_trip_iff fun _ h => h.encode_decode).2 _ hdistinct hbinary).mpr hfree

/-- A string with a NUL comes back without its end. -/
theorem sdk_round_trip_cut :
    fromSdkValue Base64.encode (toSdkValue Base64.decode (.S "a\x00b")) = .S "a" ∧
      ¬ ∀ v : Value, v.DistinctNames → v.CanonicalBinary →
        Reordered (fromSdkValue Base64.encode (toSdkValue Base64.decode v)) v := by
  have hcut : fromSdkValue Base64.encode (toSdkValue Base64.decode (.S "a\x00b")) = .S "a" := rfl
  refine ⟨hcut, ?_⟩
  intro h
  have hback := h (.S "a\x00b") (Value.distinctNames_leaf rfl)
    ((Value.canonicalBinary_leaf rfl).mpr nofun)
  have hfree := hback.nulFree (nulFree_fromSdk_toSdk _)
  rw [Value.nulFree_leaf rfl] at hfree
  have hnul := hfree "a\x00b" (List.mem_singleton_self _)
  exact absurd hnul (by decide)

end DdbShell
