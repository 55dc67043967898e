import Mathlib.Data.List.Sort
import Mathlib.Order.WithBot

/-!
Sweeps: a store is read page by page in the order of its entries' places, each
page strictly after the last place of the page before, and every row of a page
is written before the next page is read. A write may change the place of its
entry, so a later page may come upon it again.

If no write leaves its entry ahead of its old place in a state in which it
would be written once more, a sweep is one pass over the entries that were
there to be written at the start, however it is cut into pages.
-/

namespace Sweep

/-- What a write does to its entry. -/
inductive Outcome (ι : Type) where
  | wrote (x : ι)
  | refused
  | failed

namespace Outcome

variable {ι : Type}

def isRefused : Outcome ι → Bool
  | .refused => true
  | _ => false

end Outcome

/-! ### Stores -/

/-- Entries under distinct keys. -/
structure Store (κ ι : Type) where
  entries : List (κ × ι)
  nodup : (entries.map Prod.fst).Nodup

namespace Store

variable {κ ι : Type} [DecidableEq κ]

def find (s : Store κ ι) (k : κ) : Option ι := s.entries.lookup k

def replaced (k : κ) (x : ι) (entry : κ × ι) : κ × ι := if entry.1 = k then (k, x) else entry

theorem replaced_fst (k : κ) (x : ι) (entry : κ × ι) : (replaced k x entry).1 = entry.1 := by
  unfold replaced
  split
  · rename_i h
    exact h.symm
  · rfl

/-- Change an entry that is there. -/
def replace (s : Store κ ι) (k : κ) (x : ι) : Store κ ι where
  entries := s.entries.map (replaced k x)
  nodup := by
    have hkeys : (s.entries.map (replaced k x)).map Prod.fst = s.entries.map Prod.fst := by
      rw [List.map_map]
      exact List.map_congr_left fun entry _ => replaced_fst k x entry
    rw [hkeys]
    exact s.nodup

theorem find_eq_some {s : Store κ ι} {k : κ} {x : ι} : s.find k = some x ↔ (k, x) ∈ s.entries := by
  obtain ⟨entries, hnodup⟩ := s
  show entries.lookup k = some x ↔ (k, x) ∈ entries
  induction entries with
  | nil => simp
  | cons entry rest ih =>
      obtain ⟨l, y⟩ := entry
      rw [List.map_cons, List.nodup_cons] at hnodup
      rw [List.lookup_cons, List.mem_cons]
      by_cases hk : k = l
      · subst hk
        have hfresh : (k, x) ∉ rest := fun hmem =>
          hnodup.1 (List.mem_map.mpr ⟨(k, x), hmem, rfl⟩)
        simp [hfresh, eq_comm]
      · have hne : (k == l) = false := by simpa using hk
        rw [hne]
        simp only [Prod.mk.injEq, hk, false_and, false_or]
        exact ih hnodup.2

theorem mem_replace {s : Store κ ι} {k l : κ} {x y z : ι} (hk : s.find k = some z) :
    (l, y) ∈ (s.replace k x).entries ↔ if l = k then y = x else (l, y) ∈ s.entries := by
  have hmem := find_eq_some.mp hk
  simp only [replace, List.mem_map, Prod.exists]
  constructor
  · rintro ⟨m, w, hentry, heq⟩
    unfold replaced at heq
    split at heq
    · cases heq
      simp
    · rename_i hm
      cases heq
      rw [if_neg hm]
      exact hentry
  · intro h
    split at h
    · rename_i hl
      subst hl h
      exact ⟨l, z, hmem, by simp [replaced]⟩
    · rename_i hl
      exact ⟨l, y, h, by simp [replaced, hl]⟩

theorem find_replace_self {s : Store κ ι} {k : κ} {x z : ι} (hk : s.find k = some z) :
    (s.replace k x).find k = some x := by
  rw [find_eq_some, mem_replace hk, if_pos rfl]

theorem find_replace_of_ne {s : Store κ ι} {k l : κ} {x z : ι} (hk : s.find k = some z)
    (hne : l ≠ k) : (s.replace k x).find l = s.find l := by
  apply Option.ext
  intro y
  rw [find_eq_some, mem_replace hk, if_neg hne, find_eq_some]

/-- Change an entry, or make a new one. -/
def put (s : Store κ ι) (k : κ) (x : ι) : Store κ ι :=
  if h : k ∈ s.entries.map Prod.fst then s.replace k x
  else ⟨(k, x) :: s.entries, List.nodup_cons.mpr ⟨h, s.nodup⟩⟩

theorem put_eq_replace {s : Store κ ι} {k : κ} {x z : ι} (hk : s.find k = some z) :
    s.put k x = s.replace k x :=
  dif_pos (List.mem_map.mpr ⟨(k, z), find_eq_some.mp hk, rfl⟩)

end Store

/-! ### Reading pages -/

/-- How a store is read. An entry without a place is not read. -/
structure Reading (κ ι π : Type) where
  place : κ → ι → Option π
  /-- no two entries share a place -/
  apart : ∀ {k l x y p}, place k x = some p → place l y = some p → k = l
  /-- the read gives an entry it comes upon back as a row -/
  returned : κ → ι → Bool

/-- Where a page ends: how many entries follow its first, and whether a page
that reaches the last entry says that more may follow. -/
structure Cut where
  size : Nat
  more : Bool

/-- An entry and its place. -/
structure Spot (κ ι π : Type) where
  place : π
  key : κ
  value : ι

namespace Reading

variable {κ ι π : Type} [LinearOrder π] (r : Reading κ ι π)

def spot? (entry : κ × ι) : Option (Spot κ ι π) :=
  (r.place entry.1 entry.2).map fun p => ⟨p, entry.1, entry.2⟩

/-- The entries with a place, in order. -/
def spots (s : Store κ ι) : List (Spot κ ι π) :=
  (s.entries.filterMap r.spot?).insertionSort fun a b => a.place ≤ b.place

def After (cursor : Option π) (p : π) : Prop := ∀ q ∈ cursor, q < p

instance (cursor : Option π) (p : π) : Decidable (After cursor p) :=
  inferInstanceAs (Decidable (∀ q ∈ cursor, q < p))

/-- What a read after the cursor comes upon. -/
def ahead (cursor : Option π) (s : Store κ ι) : List (Spot κ ι π) :=
  (r.spots s).filter fun a => After cursor a.place

def seen (cut : Cut) (cursor : Option π) (s : Store κ ι) : List (Spot κ ι π) :=
  (r.ahead cursor s).take (cut.size + 1)

/-- The rows of a page. -/
def rows (cut : Cut) (cursor : Option π) (s : Store κ ι) : List (Spot κ ι π) :=
  (r.seen cut cursor s).filter fun a => r.returned a.key a.value

/-- The place the next page starts after, unless this page is the last. -/
def next (cut : Cut) (cursor : Option π) (s : Store κ ι) : Option π :=
  if cut.size + 1 < (r.ahead cursor s).length ∨
      cut.more = true ∧ cut.size + 1 = (r.ahead cursor s).length then
    (r.seen cut cursor s).getLast?.map Spot.place
  else none

/-! ### The order of a store -/

variable [DecidableEq κ] {r} {s : Store κ ι} {cursor : Option π} {cut : Cut} {q : π}

theorem mem_spots {a : Spot κ ι π} :
    a ∈ r.spots s ↔ s.find a.key = some a.value ∧ r.place a.key a.value = some a.place := by
  rw [spots, List.mem_insertionSort, List.mem_filterMap, Store.find_eq_some]
  constructor
  · rintro ⟨⟨k, x⟩, hentry, hspot⟩
    obtain ⟨p, hp, rfl⟩ := Option.map_eq_some_iff.mp hspot
    exact ⟨hentry, hp⟩
  · rintro ⟨hentry, hp⟩
    exact ⟨(a.key, a.value), hentry, by simp [spot?, hp]⟩

theorem spot_ext {a b : Spot κ ι π} (ha : a ∈ r.spots s) (hb : b ∈ r.spots s)
    (h : a.key = b.key) : a = b := by
  obtain ⟨p, k, x⟩ := a
  obtain ⟨q, l, y⟩ := b
  obtain ⟨hx, hp⟩ := mem_spots.mp ha
  obtain ⟨hy, hq⟩ := mem_spots.mp hb
  cases h
  rw [hx] at hy
  cases hy
  rw [hp] at hq
  cases hq
  rfl

theorem key_ext {a b : Spot κ ι π} (ha : a ∈ r.spots s) (hb : b ∈ r.spots s)
    (h : a.place = b.place) : a = b := by
  have hq := (mem_spots.mp hb).2
  rw [← h] at hq
  exact spot_ext ha hb (r.apart (mem_spots.mp ha).2 hq)

omit [DecidableEq κ] in
theorem nodup_spots : (r.spots s).Nodup := by
  rw [spots, (List.perm_insertionSort _ _).nodup_iff]
  refine List.Nodup.filterMap ?_ s.nodup.of_map
  rintro ⟨k, x⟩ ⟨l, y⟩ a ha ha'
  obtain ⟨p, hp, rfl⟩ := Option.map_eq_some_iff.mp ha
  obtain ⟨q, hq, heq⟩ := Option.map_eq_some_iff.mp ha'
  cases heq
  rfl

/-- Places go up strictly. -/
theorem sorted_spots : (r.spots s).Pairwise fun a b => a.place < b.place := by
  have htotal : Std.Total fun a b : Spot κ ι π => a.place ≤ b.place :=
    ⟨fun a b => le_total a.place b.place⟩
  have htrans : IsTrans (Spot κ ι π) fun a b => a.place ≤ b.place :=
    ⟨fun a b c => le_trans⟩
  have hle := List.pairwise_insertionSort (fun a b : Spot κ ι π => a.place ≤ b.place)
    (s.entries.filterMap r.spot?)
  refine List.Pairwise.imp_of_mem ?_ (hle.and nodup_spots)
  intro a b ha hb hab
  exact lt_of_le_of_ne hab.1 fun heq => hab.2 (key_ext ha hb heq)

omit [DecidableEq κ] in
theorem mem_ahead {a : Spot κ ι π} :
    a ∈ r.ahead cursor s ↔ a ∈ r.spots s ∧ After cursor a.place := by
  simp [ahead]

theorem sorted_ahead : (r.ahead cursor s).Pairwise fun a b => a.place < b.place :=
  sorted_spots.filter _

theorem nodup_keys {spots : List (Spot κ ι π)} (hsub : spots.Sublist (r.spots s)) :
    (spots.map Spot.key).Nodup := by
  rw [List.Nodup, List.pairwise_map]
  refine List.Pairwise.imp_of_mem ?_ (nodup_spots.sublist hsub)
  intro a b ha hb hne heq
  exact hne (spot_ext (hsub.subset ha) (hsub.subset hb) heq)

omit [DecidableEq κ] in
/-- Two lists of spots in order are the same if they hold the same spots. -/
theorem eq_of_sorted {xs ys : List (Spot κ ι π)}
    (hxs : xs.Pairwise fun a b => a.place < b.place)
    (hys : ys.Pairwise fun a b => a.place < b.place) (h : ∀ a, a ∈ xs ↔ a ∈ ys) : xs = ys := by
  have hirrefl : Std.Irrefl fun a b : Spot κ ι π => a.place < b.place :=
    ⟨fun a => lt_irrefl a.place⟩
  have hanti : Std.Antisymm fun a b : Spot κ ι π => a.place < b.place :=
    ⟨fun a b hab hba => absurd hba hab.asymm⟩
  exact hxs.eq_of_mem_iff hys h

/-! ### One page -/

omit [DecidableEq κ] in
theorem seen_sublist : (r.seen cut cursor s).Sublist (r.spots s) :=
  (List.take_sublist _ _).trans List.filter_sublist

omit [DecidableEq κ] in
theorem rows_sublist : (r.rows cut cursor s).Sublist (r.spots s) :=
  List.filter_sublist.trans seen_sublist

omit [DecidableEq κ] in
/-- A page that is not the last one ends with the place it goes on after. -/
theorem next_spec (h : r.next cut cursor s = some q) :
    ∃ front a, r.seen cut cursor s = front ++ [a] ∧ a.place = q := by
  unfold next at h
  split at h
  · obtain ⟨a, hlast, rfl⟩ := Option.map_eq_some_iff.mp h
    obtain ⟨front, hfront⟩ := List.getLast?_eq_some_iff.mp hlast
    exact ⟨front, a, hfront, rfl⟩
  · cases h

omit [DecidableEq κ] in
theorem ahead_eq_seen (h : r.next cut cursor s = none) :
    r.seen cut cursor s = r.ahead cursor s := by
  have hshort : ¬ cut.size + 1 < (r.ahead cursor s).length := by
    intro hlong
    rw [next, if_pos (.inl hlong), Option.map_eq_none_iff, List.getLast?_eq_none_iff, seen,
      List.take_eq_nil_iff] at h
    rcases h with h | h
    · cases h
    · rw [h] at hlong
      cases hlong
  exact List.take_of_length_le (Nat.le_of_not_lt hshort)

/-- What a page leaves is what lies after the place it ends with. -/
theorem ahead_eq_append (h : r.next cut cursor s = some q) :
    r.ahead cursor s = r.seen cut cursor s ++ r.ahead (some q) s := by
  obtain ⟨front, a, hseen, rfl⟩ := next_spec h
  have hsplit : r.ahead cursor s =
      r.seen cut cursor s ++ (r.ahead cursor s).drop (cut.size + 1) :=
    (List.take_append_drop _ _).symm
  have hsorted : (r.seen cut cursor s ++ (r.ahead cursor s).drop (cut.size + 1)).Pairwise
      fun a b => a.place < b.place := hsplit ▸ sorted_ahead
  obtain ⟨hfront, hback, hcross⟩ := List.pairwise_append.mp hsorted
  have hlast : a ∈ r.seen cut cursor s := by simp [hseen]
  have hcursor : After cursor a.place := (mem_ahead.mp (List.mem_of_mem_take hlast)).2
  refine hsplit.trans (congrArg _ (eq_of_sorted hback sorted_ahead fun b => ?_))
  rw [mem_ahead]
  constructor
  · intro hb
    refine ⟨(mem_ahead.mp (List.mem_of_mem_drop hb)).1, ?_⟩
    intro p hp
    cases hp
    exact hcross a hlast b hb
  · rintro ⟨hb, hafter⟩
    have hlt : a.place < b.place := hafter _ rfl
    have hmem : b ∈ r.ahead cursor s :=
      mem_ahead.mpr ⟨hb, fun p hp => (hcursor p hp).trans hlt⟩
    rw [hsplit, List.mem_append] at hmem
    refine hmem.resolve_left fun hb' => ?_
    rw [hseen, List.mem_append, List.mem_singleton] at hb'
    rcases hb' with hb' | rfl
    · rw [hseen] at hfront
      exact hlt.asymm ((List.pairwise_append.mp hfront).2.2 b hb' a (by simp))
    · exact lt_irrefl _ hlt

theorem le_of_mem_seen {a : Spot κ ι π} (h : r.next cut cursor s = some q)
    (ha : a ∈ r.seen cut cursor s) : a.place ≤ q := by
  obtain ⟨front, last, hseen, rfl⟩ := next_spec h
  have hsorted : (r.seen cut cursor s).Pairwise fun a b => a.place < b.place :=
    sorted_ahead.sublist (List.take_sublist _ _)
  rw [hseen] at ha hsorted
  rcases List.mem_append.mp ha with ha | ha
  · exact le_of_lt ((List.pairwise_append.mp hsorted).2.2 a ha last (by simp))
  · rw [List.mem_singleton.mp ha]

end Reading

/-! ### Writing rows -/

/-- How a store is read, and how a row is written. -/
structure Rules (κ ι π : Type) extends Reading κ ι π where
  write : κ → ι → Outcome ι

/-- The keys that were written, the store, and whether a write failed. -/
structure Swept (κ ι : Type) where
  wrote : List κ
  store : Store κ ι
  halted : Bool

/-- Go on from the store that was left, unless a write failed. -/
def Swept.andThen {κ ι : Type} (first : Swept κ ι) (rest : Store κ ι → Swept κ ι) : Swept κ ι :=
  if first.halted then first
  else { rest first.store with wrote := first.wrote ++ (rest first.store).wrote }

namespace Rules

open Reading

section Writing

variable {κ ι π : Type} [DecidableEq κ] (r : Rules κ ι π)

/-- Write the rows one by one, as the store then is. -/
def writeRows : List κ → Store κ ι → Swept κ ι
  | [], s => ⟨[], s, false⟩
  | k :: ks, s =>
      match s.find k with
      | none => ⟨[], s, true⟩
      | some x =>
          match r.write k x with
          | .wrote y =>
              let rest := writeRows ks (s.replace k y)
              { rest with wrote := k :: rest.wrote }
          | .refused => writeRows ks s
          | .failed => ⟨[], s, true⟩

/-- A row whose write would not be refused. -/
def live (a : Spot κ ι π) : Bool :=
  r.returned a.key a.value && !(r.write a.key a.value).isRefused

variable {r} {s : Store κ ι}

theorem writeRows_append (ks ls : List κ) (s : Store κ ι) :
    r.writeRows (ks ++ ls) s = (r.writeRows ks s).andThen (r.writeRows ls) := by
  induction ks generalizing s with
  | nil => simp [writeRows, Swept.andThen]
  | cons k ks ih =>
      rw [List.cons_append, writeRows, writeRows]
      cases s.find k with
      | none => rfl
      | some x =>
          dsimp only
          cases r.write k x with
          | failed => rfl
          | refused => exact ih s
          | wrote y =>
              dsimp only
              rw [ih, Swept.andThen, Swept.andThen]
              dsimp only
              split <;> rfl

theorem wrote_sublist (ks : List κ) (s : Store κ ι) : (r.writeRows ks s).wrote.Sublist ks := by
  induction ks generalizing s with
  | nil => exact .slnil
  | cons k ks ih =>
      rw [writeRows]
      cases s.find k with
      | none => exact List.nil_sublist _
      | some x =>
          dsimp only
          cases r.write k x with
          | failed => exact List.nil_sublist _
          | refused => exact (ih s).cons k
          | wrote y => exact (ih _).cons_cons k

/-- Spots as the store has them, under distinct keys. -/
structure Listed (s : Store κ ι) (spots : List (Spot κ ι π)) : Prop where
  found : ∀ a ∈ spots, s.find a.key = some a.value
  nodup : (spots.map Spot.key).Nodup

namespace Listed

variable {spots : List (Spot κ ι π)} {a : Spot κ ι π}

theorem tail (h : Listed s (a :: spots)) : Listed s spots :=
  ⟨fun b hb => h.found b (List.mem_cons_of_mem _ hb), (List.nodup_cons.mp h.nodup).2⟩

theorem replaced (h : Listed s (a :: spots)) (y : ι) : Listed (s.replace a.key y) spots := by
  refine ⟨fun b hb => ?_, h.tail.nodup⟩
  have hne : b.key ≠ a.key := fun heq =>
    (List.nodup_cons.mp h.nodup).1 (heq ▸ List.mem_map_of_mem hb)
  rw [Store.find_replace_of_ne (h.found a List.mem_cons_self) hne]
  exact h.tail.found b hb

end Listed

variable {spots : List (Spot κ ι π)}

/-- Writes that are refused change nothing. -/
theorem writeRows_live (h : Listed s spots) :
    r.writeRows ((spots.filter fun a => r.returned a.key a.value).map Spot.key) s =
      r.writeRows ((spots.filter r.live).map Spot.key) s := by
  induction spots generalizing s with
  | nil => rfl
  | cons a spots ih =>
      cases hret : r.returned a.key a.value with
      | false =>
          have hlive : r.live a = false := by rw [live, hret, Bool.false_and]
          rw [List.filter_cons_of_neg (by simp [hret]), List.filter_cons_of_neg (by simp [hlive])]
          exact ih h.tail
      | true =>
          rw [List.filter_cons_of_pos (by simpa using hret), List.map_cons, writeRows,
            h.found a List.mem_cons_self]
          dsimp only
          cases hwrite : r.write a.key a.value with
          | refused =>
              have hlive : r.live a = false := by simp [live, hwrite, Outcome.isRefused]
              rw [List.filter_cons_of_neg (by simp [hlive])]
              exact ih h.tail
          | failed =>
              have hlive : r.live a = true := by simp [live, hret, hwrite, Outcome.isRefused]
              rw [List.filter_cons_of_pos hlive, List.map_cons, writeRows,
                h.found a List.mem_cons_self]
              dsimp only
              rw [hwrite]
          | wrote y =>
              have hlive : r.live a = true := by simp [live, hret, hwrite, Outcome.isRefused]
              rw [List.filter_cons_of_pos hlive, List.map_cons, writeRows,
                h.found a List.mem_cons_self]
              dsimp only
              rw [hwrite]
              dsimp only
              rw [ih (h.replaced y)]

/-- Entries that are not among the rows stay as they are. -/
theorem find_writeRows_of_notMem {l : κ} (h : Listed s spots) (hl : l ∉ spots.map Spot.key) :
    (r.writeRows (spots.map Spot.key) s).store.find l = s.find l := by
  induction spots generalizing s with
  | nil => rfl
  | cons a spots ih =>
      rw [List.map_cons, List.mem_cons, not_or] at hl
      have hfound := h.found a List.mem_cons_self
      rw [List.map_cons, writeRows, hfound]
      dsimp only
      cases r.write a.key a.value with
      | refused => exact ih h.tail hl.2
      | failed => rfl
      | wrote y =>
          dsimp only
          rw [ih (h.replaced y) hl.2, Store.find_replace_of_ne hfound hl.1]

/-- Unless a write failed, every live row was written. -/
theorem find_writeRows_of_mem {a : Spot κ ι π} (h : Listed s spots)
    (hlive : ∀ b ∈ spots, r.live b = true)
    (hhalted : (r.writeRows (spots.map Spot.key) s).halted = false) (ha : a ∈ spots) :
    ∃ y, r.write a.key a.value = .wrote y ∧
      (r.writeRows (spots.map Spot.key) s).store.find a.key = some y := by
  induction spots generalizing s with
  | nil => cases ha
  | cons b spots ih =>
      have hfound := h.found b List.mem_cons_self
      have hb := hlive b List.mem_cons_self
      rw [List.map_cons, writeRows, hfound] at hhalted ⊢
      dsimp only at hhalted ⊢
      cases hwrite : r.write b.key b.value with
      | refused =>
          rw [live, hwrite] at hb
          simp [Outcome.isRefused] at hb
      | failed =>
          rw [hwrite] at hhalted
          cases hhalted
      | wrote y =>
          rw [hwrite] at hhalted
          dsimp only at hhalted ⊢
          rcases List.mem_cons.mp ha with rfl | ha
          · have hfresh := (List.nodup_cons.mp h.nodup).1
            refine ⟨y, hwrite, ?_⟩
            rw [find_writeRows_of_notMem (h.replaced y) hfresh, Store.find_replace_self hfound]
          · exact ih (h.replaced y) (fun c hc => hlive c (List.mem_cons_of_mem _ hc)) hhalted ha

end Writing

/-! ### The page loop -/

variable {κ ι π : Type} [DecidableEq κ] [LinearOrder π] (r : Rules κ ι π)

/-- The page loop, `none` if it takes more pages than the budget. -/
def sweep (cuts : Nat → Cut) : Nat → Nat → Option π → Store κ ι → Option (Swept κ ι)
  | 0, _, _, _ => none
  | budget + 1, i, cursor, s =>
      let page := r.writeRows ((r.rows (cuts i) cursor s).map Spot.key) s
      if page.halted then some page
      else match r.next (cuts i) cursor s with
        | none => some page
        | some q =>
            (sweep cuts budget (i + 1) (some q) page.store).map fun rest =>
              { rest with wrote := page.wrote ++ rest.wrote }

/-- What is still to be written after the cursor. -/
def pending (cursor : Option π) (s : Store κ ι) : List (Spot κ ι π) :=
  (r.ahead cursor s).filter r.live

/-- One pass over the entries that are there to be written. -/
def onePass (s : Store κ ι) : Swept κ ι := r.writeRows ((r.pending none s).map Spot.key) s

/-- A write does not leave the entry ahead of its old place and still to be
written. -/
def Settles (a : Spot κ ι π) : Prop :=
  ∀ y q, r.write a.key a.value = .wrote y → r.place a.key y = some q → a.place < q →
    r.live ⟨q, a.key, y⟩ = false

variable {r} {s : Store κ ι} {cursor : Option π} {cut : Cut} {q : π}

omit [DecidableEq κ] in
theorem mem_pending {a : Spot κ ι π} :
    a ∈ r.pending cursor s ↔ a ∈ r.spots s ∧ After cursor a.place ∧ r.live a = true := by
  rw [pending, List.mem_filter, mem_ahead, and_assoc]

theorem sorted_pending : (r.pending cursor s).Pairwise fun a b => a.place < b.place :=
  sorted_ahead.filter _

theorem Listed.ofSublist {reading : Reading κ ι π} {spots : List (Spot κ ι π)}
    (hsub : spots.Sublist (reading.spots s)) : Listed s spots :=
  ⟨fun _ ha => (mem_spots.mp (hsub.subset ha)).1, nodup_keys hsub⟩

/-! ### One turn of the loop -/

/-- The part of a page that is still to be written. -/
def livePart (r : Rules κ ι π) (cut : Cut) (cursor : Option π) (s : Store κ ι) :
    List (Spot κ ι π) :=
  (r.seen cut cursor s).filter r.live

omit [DecidableEq κ] in
theorem livePart_sublist : (r.livePart cut cursor s).Sublist (r.spots s) :=
  List.filter_sublist.trans seen_sublist

theorem writeRows_rows :
    r.writeRows ((r.rows cut cursor s).map Spot.key) s =
      r.writeRows ((r.livePart cut cursor s).map Spot.key) s :=
  writeRows_live (.ofSublist seen_sublist)

omit [DecidableEq κ] in
theorem pending_eq_livePart (h : r.next cut cursor s = none) :
    r.pending cursor s = r.livePart cut cursor s := by
  rw [pending, livePart, ahead_eq_seen h]

theorem pending_eq_append (h : r.next cut cursor s = some q) :
    r.pending cursor s = r.livePart cut cursor s ++ r.pending (some q) s := by
  rw [pending, ahead_eq_append h, List.filter_append]
  rfl

/-- A spot of the store a page leaves: its entry was not written, or it is what
a write of the page made of it. -/
theorem mem_spots_turn {a : Spot κ ι π}
    (hhalted : (r.writeRows ((r.livePart cut cursor s).map Spot.key) s).halted = false)
    (ha : a ∈ r.spots (r.writeRows ((r.livePart cut cursor s).map Spot.key) s).store) :
    (a.key ∉ (r.livePart cut cursor s).map Spot.key ∧ a ∈ r.spots s) ∨
      ∃ b ∈ r.livePart cut cursor s, b.key = a.key ∧ r.write b.key b.value = .wrote a.value := by
  have hlisted : Listed s (r.livePart cut cursor s) := .ofSublist livePart_sublist
  obtain ⟨hfound, hplace⟩ := mem_spots.mp ha
  by_cases hkey : a.key ∈ (r.livePart cut cursor s).map Spot.key
  · obtain ⟨b, hb, heq⟩ := List.mem_map.mp hkey
    obtain ⟨y, hwrite, hy⟩ :=
      find_writeRows_of_mem hlisted (fun c hc => (List.mem_filter.mp hc).2) hhalted hb
    rw [heq, hfound, Option.some.injEq] at hy
    exact .inr ⟨b, hb, heq, by rw [hwrite, hy]⟩
  · rw [find_writeRows_of_notMem hlisted hkey] at hfound
    exact .inl ⟨hkey, mem_spots.mpr ⟨hfound, hplace⟩⟩

/-- What lies after a page is still to be written as it was before. -/
theorem pending_turn (hnext : r.next cut cursor s = some q)
    (hsettles : ∀ a ∈ r.livePart cut cursor s, r.Settles a)
    (hhalted : (r.writeRows ((r.livePart cut cursor s).map Spot.key) s).halted = false) :
    r.pending (some q) (r.writeRows ((r.livePart cut cursor s).map Spot.key) s).store =
      r.pending (some q) s := by
  have hlisted : Listed s (r.livePart cut cursor s) := .ofSublist livePart_sublist
  have hbehind : ∀ b ∈ r.livePart cut cursor s, b.place ≤ q := fun b hb =>
    le_of_mem_seen hnext (List.mem_of_mem_filter hb)
  refine eq_of_sorted sorted_pending sorted_pending fun a => ?_
  rw [mem_pending, mem_pending]
  constructor
  · rintro ⟨ha, hafter, hlive⟩
    rcases mem_spots_turn hhalted ha with ⟨-, hs⟩ | ⟨b, hb, hkey, hwrite⟩
    · exact ⟨hs, hafter, hlive⟩
    · -- a written entry that is still to be written would be ahead of its old place
      have hlt : b.place < a.place := (hbehind b hb).trans_lt (hafter q rfl)
      have hplace := (mem_spots.mp ha).2
      rw [← hkey] at hplace
      have hdead := hsettles b hb a.value a.place hwrite hplace hlt
      rw [hkey] at hdead
      exact absurd hlive (by rw [show r.live a = false from hdead]; simp)
  · rintro ⟨ha, hafter, hlive⟩
    have hfresh : a.key ∉ (r.livePart cut cursor s).map Spot.key := by
      intro hkey
      obtain ⟨b, hb, heq⟩ := List.mem_map.mp hkey
      have hle := hbehind b hb
      rw [spot_ext (livePart_sublist.subset hb) ha heq] at hle
      exact absurd (hafter q rfl) hle.not_gt
    obtain ⟨hfound, hplace⟩ := mem_spots.mp ha
    rw [← find_writeRows_of_notMem hlisted hfresh] at hfound
    exact ⟨mem_spots.mpr ⟨hfound, hplace⟩, hafter, hlive⟩

/-- Only the entries a page has written can be ahead of it anew. -/
theorem length_ahead_turn
    (hhalted : (r.writeRows ((r.livePart cut cursor s).map Spot.key) s).halted = false) :
    (r.ahead (some q) (r.writeRows ((r.livePart cut cursor s).map Spot.key) s).store).length ≤
      (r.ahead (some q) s).length + (r.livePart cut cursor s).length := by
  have hsub : ((r.ahead (some q)
      (r.writeRows ((r.livePart cut cursor s).map Spot.key) s).store).map Spot.key) ⊆
        (r.ahead (some q) s).map Spot.key ++ (r.livePart cut cursor s).map Spot.key := by
    intro k hk
    obtain ⟨a, ha, rfl⟩ := List.mem_map.mp hk
    obtain ⟨hspot, hafter⟩ := mem_ahead.mp ha
    rcases mem_spots_turn hhalted hspot with ⟨-, hs⟩ | ⟨b, hb, hkey, -⟩
    · exact List.mem_append_left _ (List.mem_map_of_mem (mem_ahead.mpr ⟨hs, hafter⟩))
    · exact List.mem_append_right _ (hkey ▸ List.mem_map_of_mem hb)
  have hnodup : ((r.ahead (some q)
      (r.writeRows ((r.livePart cut cursor s).map Spot.key) s).store).map Spot.key).Nodup :=
    nodup_keys List.filter_sublist
  have hle := (List.subperm_of_subset hnodup hsub).length_le
  simpa using hle

/-! ### The whole sweep -/

/-- How many pages may still come. -/
def pagesLeft (r : Rules κ ι π) (cursor : Option π) (s : Store κ ι) : Nat :=
  (r.pending cursor s).length + (r.ahead cursor s).length

/-- However it is cut, a sweep writes what is still to be written once, in
order, up to the first write that fails. -/
theorem sweep_eq (cuts : Nat → Cut) (budget i : Nat) (cursor : Option π) (s : Store κ ι)
    (hsettles : ∀ a ∈ r.pending cursor s, r.Settles a) (hbudget : r.pagesLeft cursor s < budget) :
    r.sweep cuts budget i cursor s =
      some (r.writeRows ((r.pending cursor s).map Spot.key) s) := by
  induction budget generalizing i cursor s with
  | zero => cases hbudget
  | succ budget ih =>
      rw [sweep, writeRows_rows]
      cases hnext : r.next (cuts i) cursor s with
      | none => simp [pending_eq_livePart hnext]
      | some q =>
          have hsplit := pending_eq_append hnext
          rw [hsplit, List.map_append, writeRows_append, Swept.andThen]
          cases hhalted :
              (r.writeRows ((r.livePart (cuts i) cursor s).map Spot.key) s).halted with
          | true => simp
          | false =>
              have hpending := pending_turn hnext
                (fun a ha => hsettles a (hsplit ▸ List.mem_append_left _ ha)) hhalted
              obtain ⟨front, last, hseen, -⟩ := next_spec hnext
              have hfewer : r.pagesLeft (some q)
                  (r.writeRows ((r.livePart (cuts i) cursor s).map Spot.key) s).store < budget := by
                have hahead := congrArg List.length (ahead_eq_append hnext)
                have hcount := congrArg List.length hsplit
                have hturn := length_ahead_turn (q := q) hhalted
                simp only [List.length_append, hseen, List.length_cons, List.length_nil]
                  at hahead hcount
                unfold pagesLeft at hbudget ⊢
                rw [hpending]
                omega
              have hrest := ih (i + 1) (some q)
                (r.writeRows ((r.livePart (cuts i) cursor s).map Spot.key) s).store
                (fun a ha => hsettles a (hsplit ▸ List.mem_append_right _ (hpending ▸ ha))) hfewer
              simp only [Bool.false_eq_true, if_false]
              rw [hrest, hpending]
              rfl

omit [DecidableEq κ] in
theorem pagesLeft_le (s : Store κ ι) : r.pagesLeft none s ≤ 2 * s.entries.length := by
  have hahead : (r.ahead none s).length ≤ s.entries.length := by
    calc (r.ahead none s).length ≤ (r.spots s).length := List.length_filter_le _ _
      _ = (s.entries.filterMap r.spot?).length := List.length_insertionSort _ _
      _ ≤ s.entries.length := List.length_filterMap_le _ _
  have hpending : (r.pending none s).length ≤ (r.ahead none s).length := List.length_filter_le _ _
  unfold pagesLeft
  omega

/-- With enough pages a sweep that settles is one pass. -/
theorem sweep_eq_onePass (cuts : Nat → Cut) {budget : Nat} {s : Store κ ι}
    (hsettles : ∀ a ∈ r.pending none s, r.Settles a) (hbudget : 2 * s.entries.length < budget) :
    r.sweep cuts budget 0 none s = some (r.onePass s) :=
  sweep_eq cuts budget 0 none s hsettles (lt_of_le_of_lt (pagesLeft_le s) hbudget)

/-- One pass writes every entry at most once, and only entries that were there
to be written. -/
theorem onePass_wrote (s : Store κ ι) :
    (r.onePass s).wrote.Nodup ∧ ∀ k ∈ (r.onePass s).wrote, ∃ a ∈ r.pending none s, a.key = k := by
  have hsub : (r.onePass s).wrote.Sublist ((r.pending none s).map Spot.key) := wrote_sublist _ _
  refine ⟨(nodup_keys (List.filter_sublist.trans List.filter_sublist)).sublist hsub, ?_⟩
  intro k hk
  exact List.mem_map.mp (hsub.subset hk)

end Rules

end Sweep
