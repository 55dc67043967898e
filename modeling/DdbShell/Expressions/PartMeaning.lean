import DdbShell.Expressions.Tokens

/-!
What the rendered token sequences denote. The whole tree denotes its own
truth value. A part denotes `partHolds`: leaves that are not kept count as
true, and so does a group that lost all of them, whether the rendering left it
out or wrote `()`. `partFull` says that no `()` was written.
-/

namespace DdbShell

open Infix (Token Prec Denotes join truth Sentence)

namespace LogicalExpression

/-- The loosest operator a node shows outside parentheses. -/
def level : LogicalExpression → Prec
  | .leaf .. => .not
  | .and negate parens _ => if negate || parens then .not else .and
  | .or negate parens _ => if negate || parens then .not else .or

theorem tokensAll_eq_map (es : List LogicalExpression) : tokensAll es = es.map tokens := by
  induction es with
  | nil => rfl
  | cons e es ih => rw [tokensAll, ih, List.map_cons]

theorem partAll_eq_map (q : Part) (es : List LogicalExpression) :
    partAll q es = es.map (part q) := by
  induction es with
  | nil => rfl
  | cons e es ih => rw [partAll, ih, List.map_cons]

theorem allHold_eq_all (v : Leaf → Bool) (es : List LogicalExpression) :
    allHold v es = es.all fun e => e.holds v := by
  induction es with
  | nil => rfl
  | cons e es ih => rw [allHold, ih, List.all_cons]

theorem anyHolds_eq_any (v : Leaf → Bool) (es : List LogicalExpression) :
    anyHolds v es = es.any fun e => e.holds v := by
  induction es with
  | nil => rfl
  | cons e es ih => rw [anyHolds, ih, List.any_cons]

/-- The flags of a connective around the tokens of its children. -/
theorem denotes_wrapped {p : Prec} {ts : Tokens} {f : (Leaf → Bool) → Bool} {b : Bool}
    (h : Denotes p ts f b) (negate parens : Bool) :
    Denotes (if negate || parens then .not else p)
      (negatedTokens negate (groupedTokens parens ts)) (fun v => xor negate (f v)) b := by
  cases negate with
  | false =>
      cases parens with
      | false => exact h.congr (by simp) rfl
      | true => exact h.group.congr (by simp) rfl
  | true =>
      cases parens with
      | false => exact h.group.not.congr (by simp) rfl
      | true => exact h.group.group.not.congr (by simp) rfl

theorem denotes_emptyGroup (negate : Bool) :
    Denotes .not (negatedTokens negate (groupedTokens true [])) (fun _ => !negate) false := by
  cases negate with
  | false => exact .emptyGroup
  | true => exact Denotes.emptyGroup.group.not

/-- A child of an AND binds at least as tight as AND. -/
theorem denotes_child {e : LogicalExpression} {ts : Tokens} {f : (Leaf → Bool) → Bool} {b : Bool}
    (h : Denotes e.level ts f b) (hor : e.isOr → e.isParenGroup) : Denotes .and ts f b := by
  cases e with
  | leaf negate parens l => exact h.toAnd
  | and negate parens es =>
      rw [level] at h
      split at h
      · exact h.toAnd
      · exact h
  | or negate parens es =>
      have hparens : parens = true := hor rfl
      rw [level, hparens, Bool.or_true, if_pos rfl] at h
      exact h.toAnd

/-- A rendered tree reads back as a condition of the tree's own truth value. -/
theorem Grown.denotes {e : LogicalExpression} (h : Grown e) :
    Denotes e.level e.tokens (fun v => e.holds v) true := by
  induction e using induct with
  | leaf negate parens l =>
      have hatom := denotes_wrapped (.atom l) negate false
      cases negate <;> exact hatom
  | and negate parens es ih =>
      cases h with
      | and size children grouped bare =>
          cases es with
          | nil => exact absurd size (by simp)
          | cons e rest =>
              have hjoin := Denotes.join_and e rest fun c hc =>
                denotes_child (ih c hc (children c hc)) (grouped c hc)
              have hwrap := denotes_wrapped hjoin negate parens
              rw [← tokensAll_eq_map] at hwrap
              exact hwrap.congr (by simp [holds, allHold_eq_all]) (by simp)
  | or negate parens es ih =>
      cases h with
      | or size children grouped bare =>
          cases es with
          | nil => exact absurd size (by simp)
          | cons e rest =>
              have hjoin := Denotes.join_or e rest fun c hc =>
                (ih c hc (children c hc)).toOr
              have hwrap := denotes_wrapped hjoin negate parens
              rw [← tokensAll_eq_map] at hwrap
              exact hwrap.congr (by simp [holds, anyHolds_eq_any]) (by simp)

/-! ### Parts -/

mutual

/-- Nothing is rendered. -/
def vacant (q : Part) : LogicalExpression → Bool
  | .leaf negate _ l => !q.keep negate l
  | .and _ parens exprlist => !parens && vacantAll q exprlist
  | .or .. => !q.keepOr

def vacantAll (q : Part) : List LogicalExpression → Bool
  | [] => true
  | e :: es => e.vacant q && vacantAll q es

end

mutual

def partHolds (q : Part) (v : Leaf → Bool) : LogicalExpression → Bool
  | .leaf negate _ l => if q.keep negate l then xor negate (v l) else true
  | .and negate parens exprlist =>
      (!parens && vacantAll q exprlist) || xor negate (partAllHold q v exprlist)
  | .or negate parens exprlist =>
      if q.keepOr then (LogicalExpression.or negate parens exprlist).holds v else true

def partAllHold (q : Part) (v : Leaf → Bool) : List LogicalExpression → Bool
  | [] => true
  | e :: es => e.partHolds q v && partAllHold q v es

end

mutual

/-- No empty parenthesised group is rendered. -/
def partFull (q : Part) : LogicalExpression → Bool
  | .leaf .. | .or .. => true
  | .and _ parens exprlist => !(parens && vacantAll q exprlist) && partFullAll q exprlist

def partFullAll (q : Part) : List LogicalExpression → Bool
  | [] => true
  | e :: es => e.partFull q && partFullAll q es

end

theorem vacantAll_eq_all (q : Part) (es : List LogicalExpression) :
    vacantAll q es = es.all (vacant q) := by
  induction es with
  | nil => rfl
  | cons e es ih => rw [vacantAll, ih, List.all_cons]

theorem partAllHold_eq_all (q : Part) (v : Leaf → Bool) (es : List LogicalExpression) :
    partAllHold q v es = es.all (partHolds q v) := by
  induction es with
  | nil => rfl
  | cons e es ih => rw [partAllHold, ih, List.all_cons]

theorem partFullAll_eq_all (q : Part) (es : List LogicalExpression) :
    partFullAll q es = es.all (partFull q) := by
  induction es with
  | nil => rfl
  | cons e es ih => rw [partFullAll, ih, List.all_cons]

theorem partHolds_of_vacant {q : Part} {e : LogicalExpression} (h : e.vacant q = true)
    (v : Leaf → Bool) : e.partHolds q v = true := by
  cases e <;> simp_all [vacant, partHolds]

theorem partFull_of_vacant {q : Part} {e : LogicalExpression} (h : e.vacant q = true) :
    e.partFull q = true := by
  induction e using induct with
  | leaf negate parens l => rfl
  | and negate parens es ih =>
      simp only [vacant, Bool.and_eq_true, Bool.not_eq_true', vacantAll_eq_all,
        List.all_eq_true] at h
      simp only [partFull, h.1, Bool.false_and, Bool.not_false, Bool.true_and,
        partFullAll_eq_all, List.all_eq_true]
      intro e he
      exact ih e he (h.2 e he)
  | or negate parens es ih => rfl

/-- Vacant elements do not count for a property they all have. -/
theorem all_filter_of_vacant {q : Part} {p : LogicalExpression → Bool}
    (hp : ∀ e, e.vacant q = true → p e = true) (es : List LogicalExpression) :
    (es.filter fun e => !e.vacant q).all p = es.all p := by
  induction es with
  | nil => rfl
  | cons e es ih =>
      cases hv : e.vacant q with
      | false => simp [hv, ih]
      | true => simp [hv, ih, hp e hv]

theorem vacantAll_eq_isEmpty (q : Part) (es : List LogicalExpression) :
    vacantAll q es = (es.filter fun e => !e.vacant q).isEmpty := by
  rw [vacantAll_eq_all]
  induction es with
  | nil => rfl
  | cons e es ih => cases hv : e.vacant q <;> simp [hv, ih]

theorem presentTokens_isEmpty (negate : Bool) (ts : Tokens) :
    (presentTokens negate ts).isEmpty = ts.isEmpty := by
  cases ts with
  | nil => rfl
  | cons t ts => cases negate <;> rfl

theorem join_isEmpty {tss : List Tokens} (sep : Token Leaf) (h : ∀ ts ∈ tss, ts.isEmpty = false) :
    (join sep tss).isEmpty = tss.isEmpty := by
  match tss, h with
  | [], _ => rfl
  | [ts], h => exact h ts (by simp)
  | ts :: us :: rest, _ => simp [join]

/-- The children of an AND that render, with what they render to. -/
theorem filter_partAll {q : Part} {es : List LogicalExpression}
    (h : ∀ e ∈ es, (e.part q).isEmpty = e.vacant q) :
    (partAll q es).filter (fun ts => !ts.isEmpty) =
      (es.filter fun e => !e.vacant q).map (part q) := by
  induction es with
  | nil => rfl
  | cons e es ih =>
      have hhead := h e (by simp)
      have htail := ih fun e he => h e (List.mem_cons_of_mem _ he)
      cases hv : e.vacant q <;> simp [partAll, hhead, hv, htail]

theorem Grown.part_isEmpty {q : Part} {e : LogicalExpression} (h : Grown e) :
    (e.part q).isEmpty = e.vacant q := by
  induction e using induct with
  | leaf negate parens l =>
      have hne := h.tokens_ne_nil
      cases hk : q.keep negate l <;> simp [part, vacant, hk, hne]
  | and negate parens es ih =>
      cases h with
      | and size children grouped bare =>
          rw [part, presentTokens_isEmpty, filter_partAll fun e he => ih e he (children e he)]
          cases parens with
          | true => rfl
          | false =>
              have hparts : ∀ ts ∈ (es.filter fun e => !e.vacant q).map (part q),
                  ts.isEmpty = false := by
                simp only [List.mem_map, List.mem_filter, Bool.not_eq_true']
                rintro ts ⟨e, ⟨he, hv⟩, rfl⟩
                rw [ih e he (children e he), hv]
              rw [groupedTokens, if_neg (by simp), join_isEmpty _ hparts, vacant,
                vacantAll_eq_isEmpty]
              simp
  | or negate parens es ih =>
      have hne := h.tokens_ne_nil
      cases hk : q.keepOr <;> simp [part, vacant, hk, hne]

/-- A part that renders anything reads back with the truth value `partHolds`. -/
theorem Grown.part_denotes {q : Part} {e : LogicalExpression} (h : Grown e)
    (hv : e.vacant q = false) :
    Denotes e.level (e.part q) (fun v => e.partHolds q v) (e.partFull q) := by
  induction e using induct with
  | leaf negate parens l =>
      have hk : q.keep negate l = true := by simpa [vacant] using hv
      simpa [part, partHolds, partFull, holds, hk] using h.denotes
  | or negate parens es ih =>
      have hk : q.keepOr = true := by simpa [vacant] using hv
      simpa [part, partHolds, partFull, hk] using h.denotes
  | and negate parens es ih =>
      have hpresent : (LogicalExpression.and negate parens es).part q =
          negatedTokens negate (groupedTokens parens
            (join .and ((es.filter fun e => !e.vacant q).map (part q)))) := by
        have hsome := h.part_isEmpty.trans hv
        cases h with
        | and size children grouped bare =>
            rw [part, presentTokens_isEmpty] at hsome
            rw [part, presentTokens, hsome, filter_partAll fun e he => (children e he).part_isEmpty]
            rfl
      cases h with
      | and size children grouped bare =>
          rw [hpresent]
          have hvacant := vacantAll_eq_isEmpty q es
          have hholds : ∀ v, partAllHold q v es =
              (es.filter fun e => !e.vacant q).all (partHolds q v) := by
            intro v
            rw [partAllHold_eq_all, all_filter_of_vacant fun e he => partHolds_of_vacant he v]
          have hfull : partFullAll q es = (es.filter fun e => !e.vacant q).all (partFull q) := by
            rw [partFullAll_eq_all, all_filter_of_vacant fun e he => partFull_of_vacant he]
          have hmem : ∀ c ∈ es.filter fun e => !e.vacant q, c ∈ es ∧ c.vacant q = false := by
            simp [List.mem_filter]
          generalize es.filter (fun e => !e.vacant q) = kept at hvacant hholds hfull hmem
          cases kept with
          | nil =>
              -- everything inside was dropped, so only the parentheses are left
              have hparens : parens = true := by simpa [vacant, hvacant] using hv
              subst hparens
              have hlevel : (LogicalExpression.and negate true es).level = .not := by simp [level]
              rw [hlevel]
              refine (denotes_emptyGroup negate).congr ?_ ?_
              · intro v
                simp [partHolds, hholds]
              · simp [partFull, hvacant]
          | cons e rest =>
              have hjoin := Denotes.join_and e rest fun c hc =>
                denotes_child (ih c (hmem c hc).1 (children c (hmem c hc).1) (hmem c hc).2)
                  (grouped c (hmem c hc).1)
              refine (denotes_wrapped hjoin negate parens).congr ?_ ?_
              · intro v
                simp [partHolds, hvacant, hholds]
              · simp [partFull, hvacant, hfull]

theorem Grown.truth_tokens {e : LogicalExpression} (h : Grown e) (v : Leaf → Bool) :
    truth v e.tokens = some (e.holds v) :=
  h.denotes.truth_eq v

theorem Grown.truth_part {e : LogicalExpression} (h : Grown e) (q : Part) (v : Leaf → Bool) :
    truth v (e.part q) = some (e.partHolds q v) := by
  cases hv : e.vacant q with
  | false => exact (h.part_denotes hv).truth_eq v
  | true =>
      have hnil : (e.part q).isEmpty = true := by rw [h.part_isEmpty, hv]
      rw [truth, if_pos hnil, partHolds_of_vacant hv]

/-- What a part renders is a sentence exactly when no `()` is in it. -/
theorem Grown.sentence_part {e : LogicalExpression} (h : Grown e) {q : Part}
    (hv : e.vacant q = false) : Sentence (e.part q) ↔ e.partFull q = true :=
  (h.part_denotes hv).sentence_iff

/-- A half is left out or is a sentence exactly when no `()` is in it. -/
theorem Grown.written_iff {e : LogicalExpression} (h : Grown e) (q : Part) :
    e.part q = [] ∨ Sentence (e.part q) ↔ e.partFull q = true := by
  cases hv : e.vacant q with
  | true =>
      have hempty := h.part_isEmpty (q := q)
      rw [hv, List.isEmpty_iff] at hempty
      simp [hempty, partFull_of_vacant hv]
  | false =>
      have hsome : e.part q ≠ [] := by
        rw [ne_eq, ← List.isEmpty_iff, h.part_isEmpty, hv]
        exact Bool.false_ne_true
      rw [h.sentence_part hv]
      simp [hsome]

end LogicalExpression

/-! ### A part with a condition behind it -/

/-- Something else after ` AND `, with nothing in front where nothing is left. -/
def followedBy {β : Type*} (ts : Tokens) (more : List (Token (Leaf ⊕ β))) :
    List (Token (Leaf ⊕ β)) :=
  (if ts.isEmpty then [] else ts.map (Token.map .inl) ++ [.and]) ++ more

theorem followed_of_denotes_and {β : Type*} {ts : Tokens} {f : (Leaf → Bool) → Bool} {full : Bool}
    (h : Denotes .and ts f full) (b : β) :
    Denotes .and (followedBy ts [.atom (.inr b)])
      (fun v => (f fun l => v (.inl l)) && v (.inr b)) full := by
  have hcheck : Denotes .and [Token.atom (Sum.inr b : Leaf ⊕ β)] (fun v => v (.inr b)) true :=
    (Denotes.atom _).toAnd
  rw [followedBy, List.isEmpty_eq_false_iff.mpr h.ne_nil, if_neg (by simp), List.append_assoc]
  exact ((h.map Sum.inl).append_and hcheck).congr (fun _ => rfl) (by simp)

namespace LogicalExpression

/-- The truth value of the filter with one more condition behind it: a bare OR
leaves that to its last disjunct. -/
def followedHolds (ks : KeySchemaView) (v : Leaf → Bool) (w : Bool) : LogicalExpression → Bool
  | .or false false es => anyHolds v es.dropLast || (allHold v es.getLast?.toList && w)
  | e => e.partHolds (filterPart ks) v && w

theorem followed_of_bareOr {β : Type*} {es : List LogicalExpression}
    (h : Grown (.or false false es)) (b : β) :
    Denotes .or (followedBy (LogicalExpression.or false false es).tokens [.atom (.inr b)])
      (fun v => anyHolds (fun l => v (.inl l)) es.dropLast ||
        (allHold (fun l => v (.inl l)) es.getLast?.toList && v (.inr b))) true := by
  cases h with
  | or size children grouped bare =>
      obtain ⟨front, last, rfl⟩ : ∃ front last, es = front ++ [last] :=
        ⟨es.dropLast, es.getLast (by rintro rfl; simp at size),
          (List.dropLast_concat_getLast _).symm⟩
      cases front with
      | nil => simp at size
      | cons e front =>
          have hfront := (Denotes.join_or e front fun c hc =>
            (children c (List.mem_append_left _ hc)).denotes.toOr).map (Sum.inl (β := β))
          have hlast := followed_of_denotes_and
            (denotes_child (children last (by simp)).denotes (grouped last (by simp))) b
          have htokens : followedBy
              (LogicalExpression.or false false (e :: front ++ [last])).tokens [.atom (.inr b)] =
                (join .or ((e :: front).map tokens)).map (Token.map .inl) ++
                  .or :: followedBy last.tokens [.atom (.inr b)] := by
            have hne := (children last (by simp)).tokens_ne_nil
            rw [tokens, negatedTokens, groupedTokens, tokensAll_eq_map, List.map_append,
              List.map_cons, List.map_singleton,
              Infix.join_append_singleton]
            simp [followedBy, hne, Token.map]
          rw [htokens]
          refine (hfront.append_or hlast.toOr).congr (fun v => ?_) (by simp)
          rw [List.dropLast_concat, List.getLast?_concat, Option.toList_some, anyHolds_eq_any,
            allHold_eq_all]
          simp

/-- Everything but a bare OR is followed as a whole. -/
theorem followedHolds_of_not_bareOr {e : LogicalExpression} (h : ¬ ∃ es, e = .or false false es)
    (ks : KeySchemaView) (v : Leaf → Bool) (w : Bool) :
    e.followedHolds ks v w = (e.partHolds (filterPart ks) v && w) := by
  cases e with
  | leaf negate parens l => rfl
  | and negate parens es => rfl
  | or negate parens es =>
      cases negate <;> cases parens
      · exact absurd ⟨es, rfl⟩ h
      all_goals rfl

/-- Any other OR stands in parentheses. -/
theorem Grown.isParenGroup_of_or {e : LogicalExpression} (h : Grown e)
    (hbare : ¬ ∃ es, e = .or false false es) (hor : e.isOr) : e.isParenGroup := by
  cases h with
  | leaf negate parens l => cases hor
  | and size children grouped bare => cases hor
  | @or negate parens es size children grouped bare =>
      cases negate with
      | true => exact bare rfl
      | false =>
          cases parens with
          | true => rfl
          | false => exact absurd ⟨es, rfl⟩ hbare

theorem Grown.denotes_followed {β : Type*} {e : LogicalExpression} (h : Grown e)
    (ks : KeySchemaView) (b : β) :
    ∃ p full, Denotes p (followedBy (e.part (filterPart ks)) [.atom (.inr b)])
      (fun v => e.followedHolds ks (fun l => v (.inl l)) (v (.inr b))) full := by
  by_cases hbare : ∃ es, e = .or false false es
  · obtain ⟨es, rfl⟩ := hbare
    exact ⟨.or, true, followed_of_bareOr h b⟩
  · cases hv : e.vacant (filterPart ks) with
    | true =>
        -- nothing is left of the clause but what follows
        have hempty : (e.part (filterPart ks)).isEmpty = true := by rw [h.part_isEmpty, hv]
        rw [followedBy, hempty, if_pos rfl, List.nil_append]
        refine ⟨.not, true, (Denotes.atom _).congr (fun v => ?_) rfl⟩
        rw [followedHolds_of_not_bareOr hbare, partHolds_of_vacant hv, Bool.true_and]
    | false =>
        have hand := denotes_child (h.part_denotes hv) (h.isParenGroup_of_or hbare)
        refine ⟨_, _, (followed_of_denotes_and hand b).congr (fun v => ?_) rfl⟩
        rw [followedHolds_of_not_bareOr hbare]

/-- With one more condition behind it a part has the truth value
`followedHolds`, and with several none. -/
theorem Grown.truth_followed {β : Type*} {e : LogicalExpression} (h : Grown e)
    (ks : KeySchemaView) (v : Leaf ⊕ β → Bool) (b : β) (bs : List β) :
    truth v (followedBy (e.part (filterPart ks)) ((b :: bs).map fun b => .atom (.inr b))) =
      if bs = [] then some (e.followedHolds ks (fun l => v (.inl l)) (v (.inr b))) else none := by
  cases bs with
  | nil =>
      obtain ⟨p, full, hdenotes⟩ := h.denotes_followed ks b
      simpa using hdenotes.truth_eq v
  | cons c cs =>
      have hnone := Infix.parse_adjacent ((if (e.part (filterPart ks)).isEmpty then [] else
        (e.part (filterPart ks)).map (Token.map Sum.inl) ++ [.and]))
        (cs.map fun b => Token.atom (Sum.inr b)) (Sum.inr b : Leaf ⊕ β) (Sum.inr c)
      rw [List.map_cons, List.map_cons, followedBy, truth, hnone]
      simp

end LogicalExpression

end DdbShell
