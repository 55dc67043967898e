import Mathlib.Tactic.Common

/-!
Boolean conditions written in infix form over an arbitrary type of atoms:
`NOT` binds tighter than `AND`, `AND` tighter than `OR`, and parentheses
group. `Reads` is the grammar, stratified by precedence, and `parse` is a
recursive-descent reader for it; `parse_eq_some_iff` says they agree, so every
token sequence has at most one reading.

An empty parenthesised group is kept as a node of its own. It is no sentence
of the strict grammar (`Expr.full`), and evaluates to true, the unit of a
conjunction.
-/

namespace Infix

variable {α : Type*}

inductive Token (α : Type*) where
  | atom : α → Token α
  | not
  | and
  | or
  | lparen
  | rparen
  deriving DecidableEq, Repr

inductive Expr (α : Type*) where
  | atom : α → Expr α
  | empty
  | not : Expr α → Expr α
  | and : Expr α → Expr α → Expr α
  | or : Expr α → Expr α → Expr α
  deriving DecidableEq, Repr

def Expr.eval (v : α → Bool) : Expr α → Bool
  | .atom a => v a
  | .empty => true
  | .not e => !e.eval v
  | .and e f => e.eval v && f.eval v
  | .or e f => e.eval v || f.eval v

/-- No empty parenthesised group occurs. -/
def Expr.full : Expr α → Bool
  | .atom _ => true
  | .empty => false
  | .not e => e.full
  | .and e f | .or e f => e.full && f.full

/-- The three precedence levels; each contains the one before it. -/
inductive Prec where
  | not
  | and
  | or
  deriving DecidableEq, Repr

/-- The grammar. Conjunctions and disjunctions are read right-nested, which
does not change what they evaluate to. -/
inductive Reads : Prec → List (Token α) → Expr α → Prop where
  | atom (a : α) : Reads .not [.atom a] (.atom a)
  | emptyGroup : Reads .not [.lparen, .rparen] .empty
  | group {ts e} : Reads .or ts e → Reads .not (.lparen :: (ts ++ [.rparen])) e
  | not {ts e} : Reads .not ts e → Reads .not (.not :: ts) (.not e)
  | ofNot {ts e} : Reads .not ts e → Reads .and ts e
  | and {ts us e f} : Reads .not ts e → Reads .and us f →
      Reads .and (ts ++ .and :: us) (.and e f)
  | ofAnd {ts e} : Reads .and ts e → Reads .or ts e
  | or {ts us e f} : Reads .and ts e → Reads .or us f →
      Reads .or (ts ++ .or :: us) (.or e f)

/-- Put a connective between consecutive token sequences. -/
def join (sep : Token α) : List (List (Token α)) → List (Token α)
  | [] => []
  | [ts] => ts
  | ts :: us :: rest => ts ++ sep :: join sep (us :: rest)

theorem join_append_singleton (sep : Token α) (ts : List (Token α)) (tss : List (List (Token α)))
    (us : List (Token α)) : join sep (ts :: tss ++ [us]) = join sep (ts :: tss) ++ sep :: us := by
  induction tss generalizing ts with
  | nil => rfl
  | cons t tss ih =>
      rw [List.cons_append, List.cons_append, join, ← List.cons_append, ih, join, List.append_assoc,
        List.cons_append]

/-! ### The reader -/

/-- Read one expression of the given precedence off the front. Every call
spends a unit of fuel. -/
def parseAt : Nat → Prec → List (Token α) → Option (Expr α × List (Token α))
  | 0, _, _ => none
  | _ + 1, .not, .atom a :: rest => some (.atom a, rest)
  | _ + 1, .not, .lparen :: .rparen :: rest => some (.empty, rest)
  | n + 1, .not, .lparen :: rest =>
      match parseAt n .or rest with
      | some (e, .rparen :: rest') => some (e, rest')
      | _ => none
  | n + 1, .not, .not :: rest =>
      match parseAt n .not rest with
      | some (e, rest') => some (.not e, rest')
      | none => none
  | _ + 1, .not, _ => none
  | n + 1, .and, ts =>
      match parseAt n .not ts with
      | some (e, .and :: rest) =>
          match parseAt n .and rest with
          | some (f, rest') => some (.and e f, rest')
          | none => none
      | other => other
  | n + 1, .or, ts =>
      match parseAt n .and ts with
      | some (e, .or :: rest) =>
          match parseAt n .or rest with
          | some (f, rest') => some (.or e f, rest')
          | none => none
      | other => other

/-- Read a whole token sequence as one condition. -/
def parse (ts : List (Token α)) : Option (Expr α) :=
  match parseAt (3 * ts.length + 3) .or ts with
  | some (e, []) => some e
  | _ => none

/-- Fuel one level needs beyond three units a token. -/
def Prec.rank : Prec → Nat
  | .not => 1
  | .and => 2
  | .or => 3

/-- What may follow an expression of the given precedence: nothing that
would continue it. -/
def Prec.Stops : Prec → List (Token α) → Prop
  | .not, _ => True
  | .and, rest => ∀ us, rest ≠ .and :: us
  | .or, rest => (∀ us, rest ≠ .and :: us) ∧ ∀ us, rest ≠ .or :: us

theorem Reads.head {p : Prec} {ts : List (Token α)} {e : Expr α}
    (h : Reads p ts e) : ∃ t us, ts = t :: us ∧ t ≠ .rparen := by
  induction h with
  | atom a => exact ⟨_, _, rfl, by simp⟩
  | emptyGroup => exact ⟨_, _, rfl, by simp⟩
  | group _ _ => exact ⟨_, _, rfl, by simp⟩
  | not _ _ => exact ⟨_, _, rfl, by simp⟩
  | ofNot _ ih => exact ih
  | and _ _ ih _ =>
      obtain ⟨t, us, rfl, ht⟩ := ih
      exact ⟨t, _, rfl, ht⟩
  | ofAnd _ ih => exact ih
  | or _ _ ih _ =>
      obtain ⟨t, us, rfl, ht⟩ := ih
      exact ⟨t, _, rfl, ht⟩

theorem Reads.ne_nil {p : Prec} {ts : List (Token α)} {e : Expr α}
    (h : Reads p ts e) : ts ≠ [] := by
  obtain ⟨t, us, rfl, _⟩ := h.head
  simp

/-- The reader finds every reading, whatever follows it. -/
theorem Reads.parseAt_append {p : Prec} {ts : List (Token α)} {e : Expr α}
    (h : Reads p ts e) (rest : List (Token α)) (hstop : p.Stops rest) (n : Nat)
    (hn : 3 * ts.length + p.rank ≤ n) :
    parseAt n p (ts ++ rest) = some (e, rest) := by
  induction h generalizing rest n with
  | atom a =>
      obtain ⟨m, rfl⟩ : ∃ m, n = m + 1 := ⟨n - 1, by simp [Prec.rank] at hn; omega⟩
      rfl
  | emptyGroup =>
      obtain ⟨m, rfl⟩ : ∃ m, n = m + 1 := ⟨n - 1, by simp [Prec.rank] at hn; omega⟩
      rfl
  | @group ts e hr ih =>
      obtain ⟨m, rfl⟩ : ∃ m, n = m + 1 := ⟨n - 1, by simp [Prec.rank] at hn; omega⟩
      have hinner : parseAt m .or (ts ++ .rparen :: rest) = some (e, .rparen :: rest) := by
        refine ih (.rparen :: rest) ⟨by simp, by simp⟩ m ?_
        simp only [List.length_cons, List.length_append, List.length_nil, Prec.rank] at hn ⊢
        omega
      obtain ⟨t, us, rfl, ht⟩ := hr.head
      simp only [List.cons_append, List.append_assoc, List.nil_append] at hinner ⊢
      cases t <;> first | exact absurd rfl ht | simp [parseAt, hinner]
  | @not ts e _ ih =>
      obtain ⟨m, rfl⟩ : ∃ m, n = m + 1 := ⟨n - 1, by simp [Prec.rank] at hn; omega⟩
      have hinner := ih rest trivial m (by simp [Prec.rank] at hn ⊢; omega)
      simp [parseAt, hinner]
  | @ofNot ts e _ ih =>
      obtain ⟨m, rfl⟩ : ∃ m, n = m + 1 := ⟨n - 1, by simp [Prec.rank] at hn; omega⟩
      have hinner := ih rest trivial m (by simp [Prec.rank] at hn ⊢; omega)
      simp only [parseAt, hinner]
      split
      · rename_i heq
        simp only [Option.some.injEq, Prod.mk.injEq] at heq
        exact absurd heq.2 (hstop _)
      · rfl
  | @and ts us e f _ _ ihl ihr =>
      obtain ⟨m, rfl⟩ : ∃ m, n = m + 1 := ⟨n - 1, by simp [Prec.rank] at hn; omega⟩
      simp only [List.length_append, List.length_cons, Prec.rank] at hn
      have hleft := ihl (.and :: (us ++ rest)) trivial m (by simp [Prec.rank]; omega)
      have hright := ihr rest hstop m (by simp [Prec.rank]; omega)
      simp [parseAt, hleft, hright]
  | @ofAnd ts e _ ih =>
      obtain ⟨m, rfl⟩ : ∃ m, n = m + 1 := ⟨n - 1, by simp [Prec.rank] at hn; omega⟩
      have hinner := ih rest hstop.1 m (by simp [Prec.rank] at hn ⊢; omega)
      simp only [parseAt, hinner]
      split
      · rename_i heq
        simp only [Option.some.injEq, Prod.mk.injEq] at heq
        exact absurd heq.2 (hstop.2 _)
      · rfl
  | @or ts us e f _ _ ihl ihr =>
      obtain ⟨m, rfl⟩ : ∃ m, n = m + 1 := ⟨n - 1, by simp [Prec.rank] at hn; omega⟩
      simp only [List.length_append, List.length_cons, Prec.rank] at hn
      have hleft := ihl (.or :: (us ++ rest)) (by simp [Prec.Stops]) m (by simp [Prec.rank]; omega)
      have hright := ihr rest hstop m (by simp [Prec.rank]; omega)
      simp [parseAt, hleft, hright]

/-- Whatever the reader takes off the front is a reading of it. -/
theorem reads_of_parseAt {n : Nat} {p : Prec} {ts rest : List (Token α)} {e : Expr α}
    (h : parseAt n p ts = some (e, rest)) :
    ∃ us, ts = us ++ rest ∧ Reads p us e := by
  induction n, p, ts using parseAt.induct generalizing e rest with
  | case1 p ts => simp [parseAt] at h
  | case2 n a tail =>
      simp only [parseAt, Option.some.injEq, Prod.mk.injEq] at h
      obtain ⟨rfl, rfl⟩ := h
      exact ⟨_, rfl, .atom a⟩
  | case3 n tail =>
      simp only [parseAt, Option.some.injEq, Prod.mk.injEq] at h
      obtain ⟨rfl, rfl⟩ := h
      exact ⟨_, rfl, .emptyGroup⟩
  | case4 n tail hne f rest' hinner ih =>
      simp only [parseAt, hinner, Option.some.injEq, Prod.mk.injEq] at h
      obtain ⟨rfl, rfl⟩ := h
      obtain ⟨us, rfl, hus⟩ := ih hinner
      exact ⟨.lparen :: (us ++ [.rparen]), by simp, .group hus⟩
  | case5 n tail hne hno ih => simp_all [parseAt]
  | case6 n tail f rest' hinner ih =>
      simp only [parseAt, hinner, Option.some.injEq, Prod.mk.injEq] at h
      obtain ⟨rfl, rfl⟩ := h
      obtain ⟨us, rfl, hus⟩ := ih hinner
      exact ⟨.not :: us, rfl, .not hus⟩
  | case7 n tail hinner ih => simp [parseAt, hinner] at h
  | case8 n ts h1 h2 h3 h4 =>
      rcases ts with _ | ⟨t, ts⟩
      · simp [parseAt] at h
      · cases t <;> simp_all [parseAt]
  | case9 n ts f tail hleft g rest' hright ihl ihr =>
      simp only [parseAt, hleft, hright, Option.some.injEq, Prod.mk.injEq] at h
      obtain ⟨rfl, rfl⟩ := h
      obtain ⟨us, rfl, hus⟩ := ihl hleft
      obtain ⟨ws, rfl, hws⟩ := ihr hright
      exact ⟨us ++ .and :: ws, by simp, .and hus hws⟩
  | case10 n ts f tail hleft hright ihl ihr => simp [parseAt, hleft, hright] at h
  | case11 n ts hno ih =>
      have hsame : parseAt n .not ts = some (e, rest) := by simpa [parseAt] using h
      obtain ⟨us, rfl, hus⟩ := ih hsame
      exact ⟨us, rfl, .ofNot hus⟩
  | case12 n ts f tail hleft g rest' hright ihl ihr =>
      simp only [parseAt, hleft, hright, Option.some.injEq, Prod.mk.injEq] at h
      obtain ⟨rfl, rfl⟩ := h
      obtain ⟨us, rfl, hus⟩ := ihl hleft
      obtain ⟨ws, rfl, hws⟩ := ihr hright
      exact ⟨us ++ .or :: ws, by simp, .or hus hws⟩
  | case13 n ts f tail hleft hright ihl ihr => simp [parseAt, hleft, hright] at h
  | case14 n ts hno ih =>
      have hsame : parseAt n .and ts = some (e, rest) := by simpa [parseAt] using h
      obtain ⟨us, rfl, hus⟩ := ih hsame
      exact ⟨us, rfl, .ofAnd hus⟩

/-- Reading is a function of the tokens: the reader accepts exactly the
sentences of the grammar. -/
theorem parse_eq_some_iff {ts : List (Token α)} {e : Expr α} :
    parse ts = some e ↔ Reads .or ts e := by
  constructor
  · intro h
    unfold parse at h
    split at h
    · rename_i f hf
      obtain ⟨us, rfl, hus⟩ := reads_of_parseAt hf
      simp only [Option.some.injEq] at h
      simpa [← h] using hus
    · cases h
  · intro h
    have hread := h.parseAt_append [] ⟨by simp, by simp⟩ (3 * ts.length + 3) (Nat.le_refl _)
    rw [List.append_nil] at hread
    simp [parse, hread]

/-! ### Other atoms -/

def Token.map {β : Type*} (f : α → β) : Token α → Token β
  | .atom a => .atom (f a)
  | .not => .not
  | .and => .and
  | .or => .or
  | .lparen => .lparen
  | .rparen => .rparen

def Expr.map {β : Type*} (f : α → β) : Expr α → Expr β
  | .atom a => .atom (f a)
  | .empty => .empty
  | .not e => .not (e.map f)
  | .and e g => .and (e.map f) (g.map f)
  | .or e g => .or (e.map f) (g.map f)

@[simp] theorem Expr.eval_map {β : Type*} (f : α → β) (v : β → Bool) (e : Expr α) :
    (e.map f).eval v = e.eval fun a => v (f a) := by
  induction e with
  | atom a => rfl
  | empty => rfl
  | not e ih => simp [map, eval, ih]
  | and e g ihe ihg => simp [map, eval, ihe, ihg]
  | or e g ihe ihg => simp [map, eval, ihe, ihg]

@[simp] theorem Expr.full_map {β : Type*} (f : α → β) (e : Expr α) :
    (e.map f).full = e.full := by
  induction e with
  | atom a => rfl
  | empty => rfl
  | not e ih => simp [map, full, ih]
  | and e g ihe ihg => simp [map, full, ihe, ihg]
  | or e g ihe ihg => simp [map, full, ihe, ihg]

theorem Reads.map {β : Type*} (f : α → β) {p : Prec} {ts : List (Token α)} {e : Expr α}
    (h : Reads p ts e) : Reads p (ts.map (Token.map f)) (e.map f) := by
  induction h with
  | atom a => exact .atom (f a)
  | emptyGroup => exact .emptyGroup
  | group _ ih => simpa [Token.map] using Reads.group ih
  | not _ ih => exact .not ih
  | ofNot _ ih => exact .ofNot ih
  | and _ _ ihl ihr => simpa [Token.map, Expr.map] using Reads.and ihl ihr
  | ofAnd _ ih => exact .ofAnd ih
  | or _ _ ihl ihr => simpa [Token.map, Expr.map] using Reads.or ihl ihr

/-- May stand right after an atom. -/
def closes : List (Token α) → Bool
  | .atom _ :: _ | .not :: _ => false
  | _ => true

/-- No atom runs into an atom or a NOT. -/
def spaced : List (Token α) → Bool
  | [] => true
  | .atom _ :: ts => closes ts && spaced ts
  | _ :: ts => spaced ts

theorem Reads.spaced_append {p : Prec} {ts : List (Token α)} {e : Expr α} (h : Reads p ts e)
    (rest : List (Token α)) (hclose : closes rest = true) (hrest : spaced rest = true) :
    spaced (ts ++ rest) = true := by
  induction h generalizing rest with
  | atom a => simp [spaced, hclose, hrest]
  | emptyGroup => simpa [spaced] using hrest
  | group _ ih =>
      have hinner := ih (.rparen :: rest) rfl (by simpa [spaced] using hrest)
      simpa [spaced] using hinner
  | not _ ih => simpa [spaced] using ih rest hclose hrest
  | ofNot _ ih => exact ih rest hclose hrest
  | @and ts us _ _ _ _ ihl ihr =>
      have hright := ihr rest hclose hrest
      have hleft := ihl (.and :: (us ++ rest)) rfl (by simpa [spaced] using hright)
      simpa using hleft
  | ofAnd _ ih => exact ih rest hclose hrest
  | @or ts us _ _ _ _ ihl ihr =>
      have hright := ihr rest hclose hrest
      have hleft := ihl (.or :: (us ++ rest)) rfl (by simpa [spaced] using hright)
      simpa using hleft

theorem spaced_adjacent (ts us : List (Token α)) (a b : α) :
    spaced (ts ++ .atom a :: .atom b :: us) = false := by
  induction ts with
  | nil => rfl
  | cons t ts ih => cases t <;> simp [Infix.spaced, ih]

theorem Reads.spaced {p : Prec} {ts : List (Token α)} {e : Expr α} (h : Reads p ts e) :
    spaced ts = true := by
  simpa using h.spaced_append [] rfl rfl

/-- Two conditions with no connective between them are none. -/
theorem parse_adjacent (ts us : List (Token α)) (a b : α) :
    parse (ts ++ .atom a :: .atom b :: us) = none := by
  cases hparse : parse (ts ++ .atom a :: .atom b :: us) with
  | none => rfl
  | some e =>
      have hspaced := (parse_eq_some_iff.mp hparse).spaced
      rw [spaced_adjacent] at hspaced
      cases hspaced

/-! ### What a token sequence denotes -/

/-- A sentence of the strict grammar: readable, with no empty group. -/
def Sentence (ts : List (Token α)) : Prop :=
  ∃ e, parse ts = some e ∧ e.full = true

/-- The truth value of a token sequence, where no tokens at all are no
condition, hence true. -/
def truth (v : α → Bool) (ts : List (Token α)) : Option Bool :=
  if ts.isEmpty then some true else (parse ts).map (Expr.eval v)

/-- The tokens are a condition of precedence `p` with truth value `f`, and
`full` says whether it is free of empty groups. -/
def Denotes (p : Prec) (ts : List (Token α)) (f : (α → Bool) → Bool) (full : Bool) : Prop :=
  ∃ e, Reads p ts e ∧ (∀ v, e.eval v = f v) ∧ e.full = full

namespace Denotes

variable {p : Prec} {ts us : List (Token α)} {f g : (α → Bool) → Bool} {b c : Bool}

theorem congr (h : Denotes p ts f b) (hfg : ∀ v, f v = g v) (hbc : b = c) :
    Denotes p ts g c := by
  obtain ⟨e, hr, he, hf⟩ := h
  exact ⟨e, hr, fun v => (he v).trans (hfg v), hf.trans hbc⟩

theorem ne_nil (h : Denotes p ts f b) : ts ≠ [] := by
  obtain ⟨e, hr, _⟩ := h
  exact hr.ne_nil

theorem atom (a : α) : Denotes .not [.atom a] (fun v => v a) true :=
  ⟨_, .atom a, fun _ => rfl, rfl⟩

theorem emptyGroup :
    Denotes .not ([.lparen, .rparen] : List (Token α)) (fun _ => true) false :=
  ⟨_, .emptyGroup, fun _ => rfl, rfl⟩

theorem not (h : Denotes .not ts f b) : Denotes .not (.not :: ts) (fun v => !f v) b := by
  obtain ⟨e, hr, he, hf⟩ := h
  exact ⟨_, .not hr, fun v => by simp [Expr.eval, he], hf⟩

theorem toAnd (h : Denotes .not ts f b) : Denotes .and ts f b := by
  obtain ⟨e, hr, he⟩ := h
  exact ⟨e, .ofNot hr, he⟩

/-- Every condition is one of the loosest precedence. -/
theorem toOr (h : Denotes p ts f b) : Denotes .or ts f b := by
  obtain ⟨e, hr, he⟩ := h
  cases p with
  | not => exact ⟨e, .ofAnd (.ofNot hr), he⟩
  | and => exact ⟨e, .ofAnd hr, he⟩
  | or => exact ⟨e, hr, he⟩

theorem group (h : Denotes p ts f b) :
    Denotes .not (.lparen :: (ts ++ [.rparen])) f b := by
  obtain ⟨e, hr, he⟩ := h.toOr
  exact ⟨e, .group hr, he⟩

theorem append_and (hl : Denotes .and ts f b) (hr : Denotes .and us g c) :
    Denotes .and (ts ++ .and :: us) (fun v => f v && g v) (b && c) := by
  obtain ⟨e, hre, he, rfl⟩ := hl
  obtain ⟨e', hre', he', rfl⟩ := hr
  suffices h : ∃ d, Reads .and (ts ++ .and :: us) d ∧
      (∀ v, d.eval v = (e.eval v && e'.eval v)) ∧ d.full = (e.full && e'.full) by
    obtain ⟨d, hd, hv, hf⟩ := h
    exact ⟨d, hd, fun v => by rw [hv, he, he'], hf⟩
  clear he he'
  -- the left operand may itself be a conjunction: re-nest it to the right
  generalize hp : Prec.and = q at hre
  induction hre with
  | ofNot h _ => exact ⟨_, .and h hre', fun _ => rfl, rfl⟩
  | and h _ _ ih =>
      obtain ⟨d, hd, hv, hf⟩ := ih hp
      refine ⟨_, by simpa using Reads.and h (by simpa [hp] using hd), fun v => ?_, ?_⟩
      · simp [Expr.eval, hv, Bool.and_assoc]
      · simp [Expr.full, hf, Bool.and_assoc]
  | _ => cases hp

theorem append_or (hl : Denotes .or ts f b) (hr : Denotes .or us g c) :
    Denotes .or (ts ++ .or :: us) (fun v => f v || g v) (b && c) := by
  obtain ⟨e, hre, he, rfl⟩ := hl
  obtain ⟨e', hre', he', rfl⟩ := hr
  suffices h : ∃ d, Reads .or (ts ++ .or :: us) d ∧
      (∀ v, d.eval v = (e.eval v || e'.eval v)) ∧ d.full = (e.full && e'.full) by
    obtain ⟨d, hd, hv, hf⟩ := h
    exact ⟨d, hd, fun v => by rw [hv, he, he'], hf⟩
  clear he he'
  generalize hp : Prec.or = q at hre
  induction hre with
  | ofAnd h _ => exact ⟨_, .or h hre', fun _ => rfl, rfl⟩
  | or h _ _ ih =>
      obtain ⟨d, hd, hv, hf⟩ := ih hp
      refine ⟨_, by simpa using Reads.or h (by simpa [hp] using hd), fun v => ?_, ?_⟩
      · simp [Expr.eval, hv, Bool.or_assoc]
      · simp [Expr.full, hf, Bool.and_assoc]
  | _ => cases hp

/-- Conditions joined by AND denote their conjunction. -/
theorem join_and {β : Type*} {toks : β → List (Token α)} {val : β → (α → Bool) → Bool}
    {full : β → Bool} (x : β) (xs : List β)
    (h : ∀ y ∈ x :: xs, Denotes .and (toks y) (val y) (full y)) :
    Denotes .and (join .and ((x :: xs).map toks))
      (fun v => (x :: xs).all fun y => val y v) ((x :: xs).all full) := by
  induction xs generalizing x with
  | nil => exact (h x (by simp)).congr (by simp) (by simp)
  | cons z zs ih =>
      have hhead := h x (by simp)
      have htail := ih z fun y hy => h y (List.mem_cons_of_mem _ hy)
      exact (hhead.append_and htail).congr (by simp) (by simp)

/-- Conditions joined by OR denote their disjunction. -/
theorem join_or {β : Type*} {toks : β → List (Token α)} {val : β → (α → Bool) → Bool}
    {full : β → Bool} (x : β) (xs : List β)
    (h : ∀ y ∈ x :: xs, Denotes .or (toks y) (val y) (full y)) :
    Denotes .or (join .or ((x :: xs).map toks))
      (fun v => (x :: xs).any fun y => val y v) ((x :: xs).all full) := by
  induction xs generalizing x with
  | nil => exact (h x (by simp)).congr (by simp) (by simp)
  | cons z zs ih =>
      have hhead := h x (by simp)
      have htail := ih z fun y hy => h y (List.mem_cons_of_mem _ hy)
      exact (hhead.append_or htail).congr (by simp) (by simp)

/-- AND between two conditions of any precedence still reads as one condition. -/
theorem append_and_any (hl : Denotes .or ts f b) (hr : Denotes .or us g c) :
    ∃ h, Denotes .or (ts ++ .and :: us) h (b && c) := by
  obtain ⟨e, hre, -, rfl⟩ := hl
  obtain ⟨e', hre', -, rfl⟩ := hr
  -- a left operand with no OR outside parentheses
  have hstep : ∀ {ts : List (Token α)} {e : Expr α}, Reads .and ts e →
      ∃ h, Denotes .or (ts ++ .and :: us) h (e.full && e'.full) := by
    intro ts e hre
    have hleft : Denotes .and ts (fun v => e.eval v) e.full := ⟨e, hre, fun _ => rfl, rfl⟩
    cases hre' with
    | ofAnd h => exact ⟨_, (hleft.append_and ⟨e', h, fun _ => rfl, rfl⟩).toOr⟩
    | @or ts' us' e1 e2 h1 h2 =>
        have hfirst := hleft.append_and ⟨e1, h1, fun _ => rfl, rfl⟩
        have hboth := hfirst.toOr.append_or ⟨e2, h2, fun _ => rfl, rfl⟩
        exact ⟨_, by simpa [Expr.full, Bool.and_assoc] using hboth⟩
  generalize hp : Prec.or = q at hre
  induction hre with
  | ofAnd h _ => exact hstep h
  | or h _ _ ih =>
      obtain ⟨g', hg'⟩ := ih hp
      have hfirst : Denotes .or _ _ _ := toOr ⟨_, h, fun _ => rfl, rfl⟩
      have hboth := hfirst.append_or hg'
      exact ⟨_, by simpa [Expr.full, Bool.and_assoc] using hboth⟩
  | _ => cases hp

theorem map {β : Type*} (k : α → β) (h : Denotes p ts f b) :
    Denotes p (ts.map (Token.map k)) (fun v => f fun a => v (k a)) b := by
  obtain ⟨e, hr, he, hf⟩ := h
  exact ⟨e.map k, hr.map k, fun v => by rw [Expr.eval_map, he], by rw [Expr.full_map, hf]⟩

theorem truth_eq (h : Denotes p ts f b) (v : α → Bool) : truth v ts = some (f v) := by
  have hne := h.ne_nil
  obtain ⟨e, hr, he, _⟩ := h.toOr
  have hparse : parse ts = some e := parse_eq_some_iff.mpr hr
  simp [truth, hne, hparse, he]

theorem sentence_iff (h : Denotes p ts f b) : Sentence ts ↔ b = true := by
  obtain ⟨e, hr, _, rfl⟩ := h.toOr
  have hparse : parse ts = some e := parse_eq_some_iff.mpr hr
  simp [Sentence, hparse]

end Denotes

/-! ### The members of a conjunction -/

def Expr.conjuncts : Expr α → List (Expr α)
  | .and e f => e.conjuncts ++ f.conjuncts
  | e => [e]

/-- The conditions a token sequence asks for together, if it is a sentence. No
tokens at all ask for nothing. -/
def conditions (ts : List (Token α)) : Option (List (Expr α)) :=
  if ts.isEmpty then some []
  else (parse ts).bind fun e => if e.full then some e.conjuncts else none

theorem Denotes.conditions_of_not_full {p : Prec} {ts : List (Token α)}
    {f : (α → Bool) → Bool} (h : Denotes p ts f false) : conditions ts = none := by
  have hne := h.ne_nil
  obtain ⟨e, hr, _, hfull⟩ := h.toOr
  simp [conditions, hne, parse_eq_some_iff.mpr hr, hfull]

/-- The tokens read as a conjunction of these members, whatever its nesting. -/
def Conjoins (p : Prec) (ts : List (Token α)) (cs : List (Expr α)) : Prop :=
  ∃ e, Reads p ts e ∧ e.conjuncts = cs ∧ e.full = true

namespace Conjoins

variable {p : Prec} {ts us : List (Token α)} {cs ds : List (Expr α)}

theorem toOr (h : Conjoins p ts cs) : Conjoins .or ts cs := by
  obtain ⟨e, hr, he⟩ := h
  cases p with
  | not => exact ⟨e, .ofAnd (.ofNot hr), he⟩
  | and => exact ⟨e, .ofAnd hr, he⟩
  | or => exact ⟨e, hr, he⟩

theorem toAnd (h : Conjoins .not ts cs) : Conjoins .and ts cs := by
  obtain ⟨e, hr, he⟩ := h
  exact ⟨e, .ofNot hr, he⟩

theorem group (h : Conjoins p ts cs) : Conjoins .not (.lparen :: (ts ++ [.rparen])) cs := by
  obtain ⟨e, hr, he⟩ := h.toOr
  exact ⟨e, .group hr, he⟩

theorem append_and (hl : Conjoins .and ts cs) (hr : Conjoins .and us ds) :
    Conjoins .and (ts ++ .and :: us) (cs ++ ds) := by
  obtain ⟨e, hre, rfl, hfull⟩ := hl
  obtain ⟨e', hre', rfl, hfull'⟩ := hr
  -- the left operand may itself be a conjunction: re-nest it to the right
  generalize hp : Prec.and = q at hre
  induction hre with
  | ofNot h _ => exact ⟨_, .and h hre', by rw [Expr.conjuncts], by simp [Expr.full, hfull, hfull']⟩
  | and h _ _ ih =>
      rw [Expr.full, Bool.and_eq_true] at hfull
      obtain ⟨d, hd, hc, hf⟩ := ih hfull.2 hp
      refine ⟨_, by simpa using Reads.and h (by simpa [hp] using hd), ?_, ?_⟩
      · rw [Expr.conjuncts, Expr.conjuncts, hc, List.append_assoc]
      · simp [Expr.full, hfull.1, hf]
  | _ => cases hp

theorem join_and {β : Type*} {toks : β → List (Token α)} {members : β → List (Expr α)} (x : β)
    (xs : List β) (h : ∀ y ∈ x :: xs, Conjoins .and (toks y) (members y)) :
    Conjoins .and (join .and ((x :: xs).map toks)) ((x :: xs).flatMap members) := by
  induction xs generalizing x with
  | nil => simpa [join] using h x (by simp)
  | cons z zs ih =>
      have htail := ih z fun y hy => h y (List.mem_cons_of_mem _ hy)
      exact (h x (by simp)).append_and htail

theorem conditions_eq (h : Conjoins p ts cs) : conditions ts = some cs := by
  obtain ⟨e, hr, rfl, hfull⟩ := h.toOr
  have hne := hr.ne_nil
  simp [conditions, hne, parse_eq_some_iff.mpr hr, hfull]

end Conjoins

end Infix
