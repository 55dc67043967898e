import DdbShell.Expressions.PartMeaning
import DdbShell.Expressions.Spine

/-!
Which leaves a rendering writes. The whole tree writes each of its leaves
once, in order; a part writes the leaves it keeps; and two parts that divide
the spine between them, with the ORs in one of the two, write every leaf of
the tree exactly once between them.
-/

namespace DdbShell

open Infix (Token join)

/-- The leaf predicates of a token sequence, left to right. -/
def atoms (ts : Tokens) : List Leaf :=
  ts.filterMap fun
    | .atom l => some l
    | _ => none

@[simp] theorem atoms_append (ts us : Tokens) : atoms (ts ++ us) = atoms ts ++ atoms us :=
  List.filterMap_append

@[simp] theorem atoms_nil : atoms [] = [] := rfl

@[simp] theorem atoms_cons_atom (l : Leaf) (ts : Tokens) : atoms (.atom l :: ts) = l :: atoms ts :=
  rfl

@[simp] theorem atoms_cons_not (ts : Tokens) : atoms (.not :: ts) = atoms ts := rfl

@[simp] theorem atoms_cons_and (ts : Tokens) : atoms (.and :: ts) = atoms ts := rfl

@[simp] theorem atoms_cons_or (ts : Tokens) : atoms (.or :: ts) = atoms ts := rfl

@[simp] theorem atoms_cons_lparen (ts : Tokens) : atoms (.lparen :: ts) = atoms ts := rfl

@[simp] theorem atoms_cons_rparen (ts : Tokens) : atoms (.rparen :: ts) = atoms ts := rfl

namespace LogicalExpression

@[simp] theorem atoms_negatedTokens (negate : Bool) (ts : Tokens) :
    atoms (negatedTokens negate ts) = atoms ts := by
  cases negate <;> simp [negatedTokens]

@[simp] theorem atoms_groupedTokens (parens : Bool) (ts : Tokens) :
    atoms (groupedTokens parens ts) = atoms ts := by
  cases parens <;> simp [groupedTokens]

@[simp] theorem atoms_presentTokens (negate : Bool) (ts : Tokens) :
    atoms (presentTokens negate ts) = atoms ts := by
  cases ts <;> simp [presentTokens]

theorem atoms_join {sep : Token Leaf} (hsep : atoms [sep] = []) (tss : List Tokens) :
    atoms (join sep tss) = tss.flatMap atoms := by
  match tss with
  | [] => rfl
  | [ts] => simp [join]
  | ts :: us :: rest =>
      have htail := atoms_join hsep (us :: rest)
      have hcons : sep :: join sep (us :: rest) = [sep] ++ join sep (us :: rest) := rfl
      rw [join, atoms_append, hcons, atoms_append, hsep, htail]
      rfl

mutual

/-- Every leaf, left to right. -/
def leaves : LogicalExpression → List Leaf
  | .leaf _ _ l => [l]
  | .and _ _ exprlist | .or _ _ exprlist => leavesAll exprlist

def leavesAll : List LogicalExpression → List Leaf
  | [] => []
  | e :: es => e.leaves ++ leavesAll es

end

theorem leavesAll_eq_flatMap (es : List LogicalExpression) : leavesAll es = es.flatMap leaves := by
  induction es with
  | nil => rfl
  | cons e es ih => rw [leavesAll, ih, List.flatMap_cons]

theorem mem_leaves_of_spine {e : LogicalExpression} {s : Bool × Leaf} (h : s ∈ e.spine) :
    s.2 ∈ e.leaves := by
  induction e using induct with
  | leaf negate parens l =>
      rw [spine, List.mem_singleton] at h
      subst h
      exact List.mem_singleton_self _
  | or negate parens es ih => cases h
  | and negate parens es ih =>
      obtain ⟨e, he, hs⟩ := mem_spineAll.mp h
      rw [leaves, leavesAll_eq_flatMap]
      exact List.mem_flatMap.mpr ⟨e, he, ih e he hs⟩

theorem countLhs_eq_countP (name : String) (e : LogicalExpression) :
    e.countLhs name = e.leaves.countP fun l => l.lhs = name := by
  have hall : ∀ es : List LogicalExpression,
      (∀ e ∈ es, e.countLhs name = e.leaves.countP fun l => l.lhs = name) →
        countLhsAll name es = (leavesAll es).countP fun l => l.lhs = name := by
    intro es h
    induction es with
    | nil => rfl
    | cons e es ih =>
        rw [countLhsAll, leavesAll, List.countP_append, h e (by simp),
          ih fun e he => h e (List.mem_cons_of_mem _ he)]
  induction e using induct with
  | leaf negate parens l => simp [countLhs, leaves, List.countP_singleton]
  | and negate parens es ih => exact hall es ih
  | or negate parens es ih => exact hall es ih

theorem atoms_tokens (e : LogicalExpression) : atoms e.tokens = e.leaves := by
  have hall : ∀ es : List LogicalExpression, (∀ e ∈ es, atoms e.tokens = e.leaves) →
      (tokensAll es).flatMap atoms = leavesAll es := by
    intro es h
    induction es with
    | nil => rfl
    | cons e es ih =>
        rw [tokensAll, List.flatMap_cons, h e (by simp), leavesAll,
          ih fun e he => h e (List.mem_cons_of_mem _ he)]
  induction e using induct with
  | leaf negate parens l => simp [tokens, leaves]
  | and negate parens es ih =>
      rw [tokens, atoms_negatedTokens, atoms_groupedTokens, atoms_join rfl, hall es ih, leaves]
  | or negate parens es ih =>
      rw [tokens, atoms_negatedTokens, atoms_groupedTokens, atoms_join rfl, hall es ih, leaves]

mutual

/-- The leaves a part writes. -/
def partLeaves (q : Part) : LogicalExpression → List Leaf
  | .leaf negate _ l => if q.keep negate l then [l] else []
  | .and _ _ exprlist => partLeavesAll q exprlist
  | .or negate parens exprlist =>
      if q.keepOr then (LogicalExpression.or negate parens exprlist).leaves else []

def partLeavesAll (q : Part) : List LogicalExpression → List Leaf
  | [] => []
  | e :: es => e.partLeaves q ++ partLeavesAll q es

end

theorem atoms_part (q : Part) (e : LogicalExpression) : atoms (e.part q) = e.partLeaves q := by
  induction e using induct with
  | leaf negate parens l =>
      cases hk : q.keep negate l <;> simp [part, partLeaves, hk, tokens]
  | or negate parens es ih =>
      cases hk : q.keepOr <;> simp [part, partLeaves, hk, atoms_tokens]
  | and negate parens es ih =>
      rw [part, atoms_presentTokens, atoms_groupedTokens, atoms_join rfl, partLeaves]
      induction es with
      | nil => rfl
      | cons e es ihes =>
          have hhead := ih e (by simp)
          have htail := ihes fun e he => ih e (List.mem_cons_of_mem _ he)
          rw [partAll, partLeavesAll, ← hhead, ← htail]
          cases hempty : (e.part q).isEmpty with
          | true =>
              have hnil : e.part q = [] := by simpa using hempty
              simp [hnil]
          | false => simp [hempty]

/-- The key condition writes the spine leaves it keeps and nothing else. -/
theorem partLeaves_eq_spine {q : Part} (hor : q.keepOr = false) (e : LogicalExpression) :
    e.partLeaves q = (e.spine.filter fun s => q.keep s.1 s.2).map Prod.snd := by
  induction e using induct with
  | leaf negate parens l => cases hk : q.keep negate l <;> simp [partLeaves, spine, hk]
  | or negate parens es ih => simp [partLeaves, spine, hor]
  | and negate parens es ih =>
      rw [partLeaves, spine]
      induction es with
      | nil => rfl
      | cons e es ihes =>
          rw [partLeavesAll, spineAll, List.filter_append, List.map_append, ih e (by simp),
            ihes fun e he => ih e (List.mem_cons_of_mem _ he)]

/-- Two parts that divide the spine write every leaf once between them. -/
theorem partLeaves_perm {q r : Part} (hq : q.keepOr = false) (hr : r.keepOr = true)
    {e : LogicalExpression} (h : ∀ s ∈ e.spine, q.keep s.1 s.2 = !r.keep s.1 s.2) :
    (e.partLeaves q ++ e.partLeaves r).Perm e.leaves := by
  induction e using induct with
  | leaf negate parens l =>
      have hsplit := h (negate, l) (by simp [spine])
      cases hk : r.keep negate l <;> simp [partLeaves, leaves, hk, hsplit]
  | or negate parens es ih => simp [partLeaves, hq, hr]
  | and negate parens es ih =>
      rw [partLeaves, partLeaves, leaves]
      rw [spine] at h
      induction es with
      | nil => exact .nil
      | cons e es ihes =>
          have hhead := ih e (by simp) fun s hs => h s (by simp [spineAll, hs])
          have htail := ihes (fun e he => ih e (List.mem_cons_of_mem _ he))
            fun s hs => h s (by simp [spineAll, hs])
          rw [partLeavesAll, partLeavesAll, leavesAll]
          refine .trans ?_ (hhead.append htail)
          rw [List.append_assoc, List.append_assoc]
          refine .append_left _ ?_
          rw [← List.append_assoc, ← List.append_assoc]
          exact .append_right _ List.perm_append_comm

end LogicalExpression

end DdbShell
