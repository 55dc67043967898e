import DdbShell.Execute.RateLimiter
import DdbShell.Parser.StatementGrammar
import DdbShell.Parser.WholeNumber

/-!
Runs of a rate limiter: that every call returns, how much can be spent, and
what one bucket notices of the calls on the other. The rates come from a WITH
RATELIMIT clause, whose numbers nothing checks.
-/

namespace DdbShell

open RateLimiter

/-! ### The clause -/

/-- `ratelimit`: the rates of each production, zero where it has none. -/
def ratelimit : List SymbolType → Option RateLimit
  | [⟨.kind .kWith, _⟩, ⟨.kind .kRatelimit, _⟩, ⟨.character '(', _⟩, ⟨.kind .tWholeNumber, rcu⟩,
      ⟨.kind .kRcu, _⟩, ⟨.character ',', _⟩, ⟨.kind .tWholeNumber, wcu⟩, ⟨.kind .kWcu, _⟩,
      ⟨.character ')', _⟩] => some ⟨parseDouble rcu, parseDouble wcu⟩
  | [⟨.kind .kWith, _⟩, ⟨.kind .kRatelimit, _⟩, ⟨.character '(', _⟩, ⟨.kind .tWholeNumber, wcu⟩,
      ⟨.kind .kWcu, _⟩, ⟨.character ',', _⟩, ⟨.kind .tWholeNumber, rcu⟩, ⟨.kind .kRcu, _⟩,
      ⟨.character ')', _⟩] => some ⟨parseDouble rcu, parseDouble wcu⟩
  | [⟨.kind .kWith, _⟩, ⟨.kind .kRatelimit, _⟩, ⟨.character '(', _⟩, ⟨.kind .tWholeNumber, rcu⟩,
      ⟨.kind .kRcu, _⟩, ⟨.character ')', _⟩] => some ⟨parseDouble rcu, 0⟩
  | [⟨.kind .kWith, _⟩, ⟨.kind .kRatelimit, _⟩, ⟨.character '(', _⟩, ⟨.kind .tWholeNumber, wcu⟩,
      ⟨.kind .kWcu, _⟩, ⟨.character ')', _⟩] => some ⟨0, parseDouble wcu⟩
  | _ => none

/-- No number of the tokens is negative. -/
def NoneNegative (ts : List SymbolType) : Prop :=
  ∀ t ∈ ts, t.kind = .kind .tWholeNumber → 0 ≤ wholeValue t.lexeme

theorem nonneg_ratelimit_iff {ts : List SymbolType} {limit : RateLimit}
    (h : ratelimit ts = some limit) : 0 ≤ limit.rcu ∧ 0 ≤ limit.wcu ↔ NoneNegative ts := by
  unfold ratelimit at h
  split at h <;> cases h <;> simp [NoneNegative, parseDouble, and_comm]

/-! ### One call -/

section Calls

variable {σ : Type} {host : Host σ} {fuel : Nat} {l : RateLimiter} {t : TimedCall σ}
  {r : Returned}

theorem perform_rate (h : perform host fuel l t = .ok r) (side : Side) :
    r.after.rate side = l.rate side := by
  unfold perform at h
  split at h
  · cases h
    exact consume_rate _ _ _ _
  · obtain ⟨w, hw, rfl⟩ := map_eq_ok h
    exact limit_rate side hw

theorem perform_call (h : perform host fuel l t = .ok r) : r.call = t.call := by
  unfold perform at h
  split at h
  · cases h
    rfl
  · obtain ⟨w, -, rfl⟩ := map_eq_ok h
    rfl

/-- What a call makes of a bucket: it is spent from, left alone or filled. -/
theorem perform_bucket (hhost : host.Monotone) {side : Side} (hrate : 0 ≤ l.rate side)
    (hlast : l.last ≤ host.now t.world) (h : perform host fuel l t = .ok r) :
    (∃ other cc, t.call = .consume other cc ∧
        r.after.bucket side = (l.bucket side).spend (t.call.taken side)) ∨
      ∃ other, t.call = .limit other ∧ l.last ≤ r.after.last ∧
        r.after.bucket side = (l.bucket side).refill r.after.last := by
  unfold perform at h
  split at h
  · next other cc hcall =>
      cases h
      refine .inl ⟨other, cc, hcall, ?_⟩
      rw [hcall, LimiterCall.taken]
      split
      · next heq => rw [← heq, bucket_consume]
      · next hne => rw [bucket_consume_of_ne _ _ _ hne, TokenBucket.spend_zero]
  · next other hcall =>
      obtain ⟨w, hw, rfl⟩ := map_eq_ok h
      exact .inr ⟨other, hcall, limit_bucket hhost hrate hlast hw⟩

end Calls

/-! ### Every call returns -/

section Returning

variable {σ : Type} {host : Host σ}

/-- What is asked of a call that has returned. -/
def Returned.Settled (r : Returned) : Prop :=
  (∀ d ∈ r.slept, 0 ≤ d) ∧
    ∀ side, r.call = .limit side → r.after.rate side = 0 ∨ 0 ≤ r.after.tokens side

theorem perform_returns (hhost : host.Monotone) (hsleep : host.Sleeps) {l : RateLimiter}
    (hrates : ∀ side, 0 ≤ l.rate side) (t : TimedCall σ) :
    ∃ r, perform host 1 l t = .ok r ∧ r.Settled := by
  obtain ⟨call, s⟩ := t
  cases call with
  | consume side cc => exact ⟨_, rfl, by simp, fun _ h => by cases h⟩
  | limit side =>
      obtain ⟨w, hw, hslept⟩ := limit_returns hhost hsleep (hrates side) (s := s) 0
      refine ⟨⟨.limit side, w.slept, w.limiter⟩, ?_, hslept, ?_⟩
      · show (l.limit host side 1 s).map _ = _
        rw [hw]
        rfl
      · rintro _ ⟨⟩
        rw [limit_rate side hw]
        exact limit_settled hw

theorem runLimiter_returns (hhost : host.Monotone) (hsleep : host.Sleeps)
    (ts : List (TimedCall σ)) {l : RateLimiter} (hrates : ∀ side, 0 ≤ l.rate side) :
    ∃ rs, runLimiter host 1 l ts = .ok rs ∧ ∀ r ∈ rs, r.Settled := by
  induction ts generalizing l with
  | nil => exact ⟨[], rfl, by simp⟩
  | cons t ts ih =>
      obtain ⟨r, hr, hsettled⟩ := perform_returns hhost hsleep hrates t
      obtain ⟨rs, hrs, hrest⟩ := ih fun side => (perform_rate hr side).symm ▸ hrates side
      refine ⟨r :: rs, ?_, List.forall_mem_cons.mpr ⟨hsettled, hrest⟩⟩
      rw [runLimiter, hr]
      show (runLimiter host 1 r.after ts >>= _) = _
      rw [hrs]
      rfl

end Returning

/-- Whatever is consumed and whenever, with a clock that does not go back and
sleeps that are long enough, every call returns and is settled. -/
def AlwaysReturns (limit : RateLimit) : Prop :=
  ∀ (σ : Type) (host : Host σ), host.Monotone → host.Sleeps →
    ∀ (start : Double) (ts : List (TimedCall σ)),
      (∀ fuel, forward host fuel (create limit start) ts = true) →
      (∀ t ∈ ts, ∀ side, 0 ≤ t.call.taken side) →
      ∃ fuel rs, runLimiter host fuel (create limit start) ts = .ok rs ∧ ∀ r ∈ rs, r.Settled

/-- The world as what its clock shows: it stands still but in sleeps. -/
def plainHost : Host Double where
  now := id
  look := id
  sleep d s := max s (s + d)

theorem plainHost_monotone : plainHost.Monotone := ⟨fun _ => le_rfl, fun _ _ => le_max_left _ _⟩

theorem plainHost_sleeps : plainHost.Sleeps := fun _ _ => le_max_right _ _

/-- Calls always return exactly when the clause has no negative number. -/
theorem ratelimit_returns_iff {ts : List SymbolType} {limit : RateLimit}
    (h : ratelimit ts = some limit) : AlwaysReturns limit ↔ NoneNegative ts := by
  rw [← nonneg_ratelimit_iff h]
  constructor
  · intro hreturns
    have hside : ∀ side, 0 ≤ limit.rate side := by
      intro side
      by_contra hneg
      have hrate : (create limit 0).rate side < 0 := by
        rw [create_rate]
        exact not_le.mp hneg
      obtain ⟨fuel, rs, hrun, -⟩ := hreturns Double plainHost plainHost_monotone plainHost_sleeps 0
        [⟨.limit side, 0⟩] (fun fuel => forward_single _ _ le_rfl) (by simp [LimiterCall.taken])
      obtain ⟨r, hr, -⟩ := bind_eq_ok hrun
      obtain ⟨w, hw, -⟩ := map_eq_ok hr
      exact limit_of_neg hrate hw
    exact ⟨hside .read, hside .write⟩
  · rintro ⟨hrcu, hwcu⟩ σ host hhost hsleep start ts - -
    obtain ⟨rs, hrs, hsettled⟩ := runLimiter_returns hhost hsleep ts (l := create limit start)
      fun side => by cases side with
        | read => exact hrcu
        | write => exact hwcu
    exact ⟨1, rs, hrs, hsettled⟩

/-- The tokens of `WITH RATELIMIT (<n> RCU)`. -/
def readClause (n : String) : List SymbolType :=
  [⟨.kind .kWith, "WITH"⟩, ⟨.kind .kRatelimit, "RATELIMIT"⟩, ⟨.character '(', "("⟩,
    ⟨.kind .tWholeNumber, n⟩, ⟨.kind .kRcu, "RCU"⟩, ⟨.character ')', ")"⟩]

theorem ratelimit_returns_iff_five :
    ratelimit (readClause "5") = some ⟨5, 0⟩ ∧
      (AlwaysReturns ⟨5, 0⟩ ↔ NoneNegative (readClause "5")) :=
  have h : ratelimit (readClause "5") = some ⟨5, 0⟩ := by decide +kernel
  ⟨h, ratelimit_returns_iff h⟩

/-- A negative rate is scanned and read; a limit on it asks for a negative
sleep, and does not return. -/
theorem negativeRate_waits :
    Lexer.lex "WITH RATELIMIT (-5 RCU)".toList = readClause "-5" ∧
      ratelimit (readClause "-5") = some ⟨-5, 0⟩ ∧
      pause plainHost .read ((create ⟨-5, 0⟩ 0).refreshAt 0) 0 = .ok ([-1], 0) ∧
      ∀ fuel w, readlimit plainHost fuel (create ⟨-5, 0⟩ 0) 0 ≠ .ok w := by
  refine ⟨by decide +kernel, by decide +kernel, by decide +kernel, fun fuel w => ?_⟩
  have hrate : (create ⟨-5, 0⟩ 0).rate .read < 0 := by decide +kernel
  exact limit_of_neg hrate

/-! ### How much can be spent -/

/-- What some calls took from a bucket. -/
def takenBy (side : Side) (rs : List Returned) : Double := (rs.map fun r => r.call.taken side).sum

section Spending

variable {σ : Type} {host : Host σ} {fuel : Nat} {side : Side} {start spent : Double}

/-- A run up to one of its calls: what was taken is covered when the call is
made, and the run goes on from there. -/
theorem runLimiter_split (hhost : host.Monotone) {l : RateLimiter} {ts : List (TimedCall σ)}
    {before after : List Returned} {r : Returned} (hrate : 0 ≤ l.rate side)
    (hcovers : (l.bucket side).Covers start spent) (hforward : forward host fuel l ts = true)
    (h : runLimiter host fuel l ts = .ok (before ++ r :: after)) :
    ∃ l' t ts', perform host fuel l' t = .ok r ∧ l'.rate side = l.rate side ∧
      l'.last ≤ host.now t.world ∧
      (l'.bucket side).Covers start (spent + takenBy side before) ∧
      forward host fuel r.after ts' = true ∧ runLimiter host fuel r.after ts' = .ok after := by
  induction before generalizing l ts spent with
  | nil =>
      cases ts with
      | nil => cases h
      | cons t ts =>
          obtain ⟨first, hfirst, h⟩ := bind_eq_ok h
          obtain ⟨rest, hrest, h⟩ := bind_eq_ok h
          cases h
          obtain ⟨hahead, hlater⟩ := forward_cons _ _ hforward
          refine ⟨l, t, ts, hfirst, rfl, hahead, ?_, hlater _ hfirst, hrest⟩
          rwa [takenBy, List.map_nil, List.sum_nil, add_zero]
  | cons first before ih =>
      cases ts with
      | nil => cases h
      | cons t ts =>
          obtain ⟨first', hfirst, h⟩ := bind_eq_ok h
          obtain ⟨rest, hrest, h⟩ := bind_eq_ok h
          cases h
          have hkeep := perform_rate hfirst side
          have hcovers' : (first.after.bucket side).Covers start
              (spent + first.call.taken side) := by
            rw [perform_call hfirst]
            rcases perform_bucket hhost hrate (forward_cons _ _ hforward).1 hfirst with
              ⟨other, cc, -, hbucket⟩ | ⟨other, hcall, -, hbucket⟩
            · rw [hbucket]
              exact TokenBucket.covers_spend hcovers
            · rw [hbucket, hcall, LimiterCall.taken, add_zero]
              exact TokenBucket.covers_refill hcovers _
          obtain ⟨l', t', ts', hr, hrate', hlast, hcovered, hgoes, hafter⟩ :=
            ih (hkeep.symm ▸ hrate) hcovers' ((forward_cons _ _ hforward).2 _ hfirst) hrest
          refine ⟨l', t', ts', hr, hrate'.trans hkeep, hlast, ?_, hgoes, hafter⟩
          rwa [add_assoc] at hcovered

/-- At the return of a limit on the bucket, what was taken is no more than the
time since has filled. -/
theorem takenBy_le (hhost : host.Monotone) {l : RateLimiter} {ts : List (TimedCall σ)}
    {before after : List Returned} {r : Returned} (hrate : 0 < l.rate side)
    (hcovers : (l.bucket side).Covers start 0) (hforward : forward host fuel l ts = true)
    (h : runLimiter host fuel l ts = .ok (before ++ r :: after)) (hcall : r.call = .limit side) :
    takenBy side before ≤ l.rate side * (r.after.last - start) := by
  obtain ⟨l', t, ts', hr, hrate', hlast, hcovered, -, -⟩ :=
    runLimiter_split hhost hrate.le hcovers hforward h
  rw [zero_add] at hcovered
  rw [perform_call hr] at hcall
  have hpositive : 0 < l'.rate side := hrate'.symm ▸ hrate
  rcases perform_bucket hhost hpositive.le hlast hr with ⟨_, _, hother, -⟩ | ⟨-, -, -, hbucket⟩
  · rw [hcall] at hother
    cases hother
  · have hcovered' : (r.after.bucket side).Covers start (takenBy side before) := by
      rw [hbucket]
      exact TokenBucket.covers_refill hcovered _
    have hlevel : 0 ≤ r.after.tokens side := by
      unfold perform at hr
      rw [hcall] at hr
      obtain ⟨w, hw, rfl⟩ := map_eq_ok hr
      exact (limit_settled hw).resolve_left hpositive.ne'
    have hbound := TokenBucket.spent_le hcovered' hlevel
    rwa [bucket_rate, bucket_last, perform_rate hr, hrate'] at hbound

/-- The bounds on what a run takes from a bucket. -/
structure ThroughputBounded (rate start : Double) (side : Side) (rs : List Returned) : Prop where
  total : ∀ before r after, rs = before ++ r :: after → r.call = .limit side →
    takenBy side before ≤ rate * (r.after.last - start)
  capped : ∀ r ∈ rs, ∀ other, r.call = .limit other → r.after.tokens side ≤ rate
  between : ∀ before r middle q after, rs = before ++ r :: (middle ++ q :: after) →
    r.call = .limit side → q.call = .limit side →
    takenBy side middle ≤ rate * (q.after.last - r.after.last + 1)

theorem create_covers (limit : RateLimit) (start : Double) (side : Side) :
    ((create limit start).bucket side).Covers start 0 := by
  show (create limit start).tokens side + 0 ≤ (create limit start).rate side * (start - start)
  rw [create_tokens, sub_self, mul_zero, add_zero]

/-- A limiter whose bucket is not over its rate, as one that was empty a unit
of time before. -/
theorem covers_of_le {l : RateLimiter} (h : l.tokens side ≤ l.rate side) :
    (l.bucket side).Covers (l.last - 1) 0 := by
  show l.tokens side + 0 ≤ l.rate side * (l.last - (l.last - 1))
  rwa [add_zero, sub_sub_cancel, mul_one]

theorem perform_level_le {l : RateLimiter} {t : TimedCall σ} {r : Returned} {other : Side}
    (h : perform host fuel l t = .ok r) (hcall : r.call = .limit other) (side : Side) :
    r.after.tokens side ≤ l.rate side := by
  rw [perform_call h] at hcall
  unfold perform at h
  rw [hcall] at h
  obtain ⟨w, hw, rfl⟩ := map_eq_ok h
  exact limit_level_le side hw

/-- A limiter bounds what is taken from a bucket with a positive rate, in every
run and whatever is called on the other. -/
theorem throughput_bounded (hhost : host.Monotone) {limit : RateLimit} {ts : List (TimedCall σ)}
    {rs : List Returned} (hrate : 0 < limit.rate side)
    (hforward : forward host fuel (create limit start) ts = true)
    (h : runLimiter host fuel (create limit start) ts = .ok rs) :
    ThroughputBounded (limit.rate side) start side rs ∧
      ∀ (l : RateLimiter) now, (l.refreshAt now).tokens side ≤ l.rate side := by
  have hrate' : 0 < (create limit start).rate side := by rwa [create_rate]
  have hcovers := create_covers limit start side
  refine ⟨⟨?_, ?_, ?_⟩, fun l now => ?_⟩
  · rintro before r after rfl hcall
    have hbound := takenBy_le hhost hrate' hcovers hforward h hcall
    rwa [create_rate] at hbound
  · intro r hmem other hcall
    obtain ⟨before, after, rfl⟩ := List.append_of_mem hmem
    obtain ⟨l, t, ts', hr, hkeep, -⟩ := runLimiter_split hhost hrate'.le hcovers hforward h
    rw [← create_rate side limit start, ← hkeep]
    exact perform_level_le hr hcall side
  · rintro before r middle q after rfl hcall hcall'
    obtain ⟨l, t, ts', hr, hkeep, -, -, hforward', hrun⟩ :=
      runLimiter_split hhost hrate'.le hcovers hforward h
    have hrate'' : r.after.rate side = limit.rate side := by
      rw [perform_rate hr, hkeep, create_rate]
    have hlevel : r.after.tokens side ≤ r.after.rate side := by
      rw [perform_rate hr]
      exact perform_level_le hr hcall side
    have hbound := takenBy_le hhost (hrate''.symm ▸ hrate) (covers_of_le hlevel) hforward' hrun
      hcall'
    rw [hrate''] at hbound
    rwa [show q.after.last - (r.after.last - 1) = q.after.last - r.after.last + 1 by ring] at hbound
  · have hlevel := TokenBucket.refill_level_le now (l.bucket side)
    rwa [← bucket_refreshAt] at hlevel

end Spending

/-! ### What one bucket notices of the other -/

section Independence

variable {σ : Type}

def TimedCall.onSide (side : Side) (t : TimedCall σ) : Bool := t.call.side = side

def Returned.onSide (side : Side) (r : Returned) : Bool := r.call.side = side

/-- Whether credit of the bucket has been lost since its last limit, after a
call that has returned: a limit on the other bucket has refilled it past its
rate. -/
def lostAfter (side : Side) (lost : Bool) (l : RateLimiter) (r : Returned) : Bool :=
  match r.call with
  | .consume _ _ => lost
  | .limit other =>
      if other = side then false else lost || !decide ((l.bucket side).Holds r.after.last)

/-- Nothing is taken from the bucket while credit of it is lost. -/
def keepsCredit (host : Host σ) (fuel : Nat) (side : Side) :
    Bool → RateLimiter → List (TimedCall σ) → Bool
  | _, _, [] => true
  | lost, l, t :: ts => (!lost || decide (t.call.taken side = 0)) &&
      match perform host fuel l t with
      | .ok r => keepsCredit host fuel side (lostAfter side lost l r) r.after ts
      | .error _ => true

theorem keepsCredit_cons {host : Host σ} {fuel : Nat} {side : Side} {lost : Bool}
    {l : RateLimiter} {t : TimedCall σ} {ts : List (TimedCall σ)}
    (h : keepsCredit host fuel side lost l (t :: ts) = true) :
    (lost = true → t.call.taken side = 0) ∧ ∀ r, perform host fuel l t = .ok r →
      keepsCredit host fuel side (lostAfter side lost l r) r.after ts = true := by
  rw [keepsCredit, Bool.and_eq_true] at h
  refine ⟨fun hlost => ?_, fun r hr => ?_⟩
  · have hzero := h.1
    rwa [hlost, Bool.not_true, Bool.false_or, decide_eq_true_eq] at hzero
  · have hrest := h.2
    rwa [hr] at hrest

/-- How a bucket of a run stands to that of the run of its own calls alone. -/
def Linked (lost : Bool) (b c : TokenBucket Double) : Prop :=
  if lost = true then b.Alike c else b.Ahead c

theorem Linked.alike {lost : Bool} {b c : TokenBucket Double} (h : Linked lost b c) :
    b.Alike c := by
  unfold Linked at h
  split at h
  · exact h
  · exact h.alike

variable {host : Host σ} {fuel : Nat} {side : Side}

/-- A call on the other bucket. -/
theorem linked_other (hhost : host.Monotone) {lost : Bool} {l : RateLimiter} {t : TimedCall σ}
    {r : Returned} {c : TokenBucket Double} (hrate : 0 ≤ l.rate side)
    (hlast : l.last ≤ host.now t.world) (hother : t.call.side ≠ side)
    (hlinked : Linked lost (l.bucket side) c) (h : perform host fuel l t = .ok r) :
    Linked (lostAfter side lost l r) (r.after.bucket side) c := by
  have hcall := perform_call h
  rcases perform_bucket hhost hrate hlast h with
    ⟨other, cc, hconsume, hbucket⟩ | ⟨other, hlimit, hle, hbucket⟩
  · rw [hconsume] at hother hcall
    have hne : other ≠ side := hother
    rw [hconsume, LimiterCall.taken, if_neg hne, TokenBucket.spend_zero] at hbucket
    rwa [hbucket, lostAfter, hcall]
  · rw [hlimit] at hother hcall
    have hne : other ≠ side := hother
    rw [hbucket, lostAfter, hcall]
    dsimp only
    rw [if_neg hne]
    by_cases hkept : lost = false ∧ (l.bucket side).Holds r.after.last
    · obtain ⟨rfl, hholds⟩ := hkept
      rw [decide_eq_true hholds]
      exact TokenBucket.Ahead.refill hlinked hholds
    · have hlost : (lost || !decide ((l.bucket side).Holds r.after.last)) = true := by
        cases lost with
        | true => rfl
        | false => simpa using fun hholds => hkept ⟨rfl, hholds⟩
      rw [hlost]
      exact hlinked.alike.refill hrate hle

/-- A call on the bucket itself does the same in the run of its own calls. -/
theorem linked_own {lost : Bool} {l a : RateLimiter} {t : TimedCall σ} {r : Returned}
    (hlast : l.last ≤ host.now t.world) (hown : t.call.side = side)
    (hlinked : Linked lost (l.bucket side) (a.bucket side))
    (hkept : lost = true → t.call.taken side = 0) (h : perform host fuel l t = .ok r) :
    ∃ r', perform host fuel a t = .ok r' ∧ r'.slept = r.slept ∧
      Linked (lostAfter side lost l r) (r.after.bucket side) (r'.after.bucket side) := by
  obtain ⟨call, s⟩ := t
  cases call with
  | consume other cc =>
      obtain rfl : other = side := hown
      cases h
      refine ⟨_, rfl, rfl, ?_⟩
      rw [bucket_consume, bucket_consume]
      cases lost with
      | false => exact TokenBucket.Ahead.spend hlinked _
      | true =>
          have hzero : units cc = 0 := by simpa [LimiterCall.taken] using hkept rfl
          rw [hzero, TokenBucket.spend_zero, TokenBucket.spend_zero]
          exact hlinked
  | limit other =>
      obtain rfl : other = side := hown
      obtain ⟨w, hw, rfl⟩ := map_eq_ok h
      obtain ⟨w', hw', hslept, hbucket⟩ := limit_congr hlinked.alike hlast hw
      refine ⟨⟨.limit other, w'.slept, w'.limiter⟩, ?_, hslept, ?_⟩
      · show (a.limit host other fuel s).map _ = _
        rw [hw']
        rfl
      · rw [hbucket, lostAfter]
        dsimp only
        rw [if_pos rfl]
        exact TokenBucket.Ahead.refl _

/-- A run that keeps its credit sleeps as that of the bucket's own calls does. -/
theorem runLimiter_own (hhost : host.Monotone) {lost : Bool} {l a : RateLimiter}
    {ts : List (TimedCall σ)} {rs : List Returned} (hrate : 0 ≤ l.rate side)
    (hlinked : Linked lost (l.bucket side) (a.bucket side))
    (hforward : forward host fuel l ts = true)
    (hkeeps : keepsCredit host fuel side lost l ts = true)
    (h : runLimiter host fuel l ts = .ok rs) :
    ∃ qs, runLimiter host fuel a (ts.filter (TimedCall.onSide side)) = .ok qs ∧
      qs.map Returned.slept = (rs.filter (Returned.onSide side)).map Returned.slept := by
  induction ts generalizing lost l a rs with
  | nil =>
      cases h
      exact ⟨[], rfl, rfl⟩
  | cons t ts ih =>
      obtain ⟨r, hr, h⟩ := bind_eq_ok h
      obtain ⟨rest, hrest, h⟩ := bind_eq_ok h
      cases h
      have hrate' : 0 ≤ r.after.rate side := (perform_rate hr side).symm ▸ hrate
      have hside : r.onSide side = t.onSide side := by
        rw [Returned.onSide, TimedCall.onSide, perform_call hr]
      obtain ⟨hahead, hlater⟩ := forward_cons _ _ hforward
      obtain ⟨hcredit, hkept⟩ := keepsCredit_cons hkeeps
      by_cases hown : t.call.side = side
      · obtain ⟨r', hr', hslept, hlinked'⟩ := linked_own hahead hown hlinked hcredit hr
        obtain ⟨qs, hqs, hsame⟩ := ih hrate' hlinked' (hlater r hr) (hkept r hr) hrest
        have honSide : t.onSide side = true := decide_eq_true hown
        rw [List.filter_cons_of_pos honSide, List.filter_cons_of_pos (hside.trans honSide)]
        refine ⟨r' :: qs, ?_, ?_⟩
        · rw [runLimiter, hr']
          show (runLimiter host fuel r'.after _ >>= _) = _
          rw [hqs]
          rfl
        · rw [List.map_cons, List.map_cons, hslept, hsame]
      · have hlinked' := linked_other hhost hrate hahead hown hlinked hr
        have honSide : ¬t.onSide side = true := by simpa [TimedCall.onSide] using hown
        rw [List.filter_cons_of_neg honSide, List.filter_cons_of_neg (hside ▸ honSide)]
        exact ih hrate' hlinked' (hlater r hr) (hkept r hr) hrest

theorem perform_unique {fuel' : Nat} {l : RateLimiter} {t : TimedCall σ} {r r' : Returned}
    (h : perform host fuel l t = .ok r) (h' : perform host fuel' l t = .ok r') : r = r' := by
  obtain ⟨call, s⟩ := t
  cases call with
  | consume other cc =>
      cases h
      cases h'
      rfl
  | limit other =>
      obtain ⟨w, hw, rfl⟩ := map_eq_ok h
      obtain ⟨w', hw', rfl⟩ := map_eq_ok h'
      rw [limit_unique hw hw']

theorem runLimiter_unique {fuel' : Nat} {l : RateLimiter} {ts : List (TimedCall σ)}
    {rs rs' : List Returned} (h : runLimiter host fuel l ts = .ok rs)
    (h' : runLimiter host fuel' l ts = .ok rs') : rs = rs' := by
  induction ts generalizing l rs rs' with
  | nil =>
      cases h
      cases h'
      rfl
  | cons t ts ih =>
      obtain ⟨r, hr, h⟩ := bind_eq_ok h
      obtain ⟨rest, hrest, h⟩ := bind_eq_ok h
      obtain ⟨r', hr', h'⟩ := bind_eq_ok h'
      obtain ⟨rest', hrest', h'⟩ := bind_eq_ok h'
      cases h
      cases h'
      obtain rfl := perform_unique hr hr'
      rw [ih hrest hrest']

/-- The sleeps that the calls on a bucket ask for. -/
def sleepsOn (side : Side) (rs : List Returned) : List (List Double) :=
  (rs.filter (Returned.onSide side)).map Returned.slept

/-- Two runs with the same calls on a bucket, at the same times, ask for the
same sleeps on it, if nothing is taken from it between a limit on the other
bucket that finds it past its rate and the next limit on it. -/
theorem limits_independent (hhost : host.Monotone) {limit : RateLimit}
    (hrates : ∀ side, 0 ≤ limit.rate side) {start : Double} {fuel' : Nat}
    {ts us : List (TimedCall σ)} {rs qs : List Returned}
    (hsame : ts.filter (TimedCall.onSide side) = us.filter (TimedCall.onSide side))
    (hts : runLimiter host fuel (create limit start) ts = .ok rs)
    (hus : runLimiter host fuel' (create limit start) us = .ok qs)
    (hforward : forward host fuel (create limit start) ts = true)
    (hforward' : forward host fuel' (create limit start) us = true)
    (hkeeps : keepsCredit host fuel side false (create limit start) ts = true)
    (hkeeps' : keepsCredit host fuel' side false (create limit start) us = true) :
    sleepsOn side rs = sleepsOn side qs := by
  have hrate : 0 ≤ (create limit start).rate side :=
    (create_rate side limit start).symm ▸ hrates side
  have hlinked : Linked false ((create limit start).bucket side)
      ((create limit start).bucket side) := TokenBucket.Ahead.refl _
  obtain ⟨own, hown, hslept⟩ := runLimiter_own hhost hrate hlinked hforward hkeeps hts
  obtain ⟨own', hown', hslept'⟩ := runLimiter_own hhost hrate hlinked hforward' hkeeps' hus
  rw [← hsame] at hown'
  obtain rfl := runLimiter_unique hown hown'
  exact hslept.symm.trans hslept'

end Independence

/-- Ten units are read at a time, and reads limited at another. -/
def readsAt (time later : Double) : List (TimedCall Double) :=
  [⟨.consume .read (some { capacityUnits := some 10 }), time⟩, ⟨.limit .read, later⟩]

def writelimitAt (time : Double) : TimedCall Double := ⟨.limit .write, time⟩

/-- What the reads return, with one sleep of a second. -/
def earlyReads : List Returned :=
  [⟨.consume .read (some { capacityUnits := some 10 }), [], ⟨5, 5, -10, 0, 0⟩⟩,
    ⟨.limit .read, [1], ⟨5, 5, 0, 5, 2⟩⟩]

theorem limits_independent_early :
    sleepsOn .read earlyReads =
      sleepsOn .read (⟨.limit .write, [], create ⟨5, 5⟩ 0⟩ :: earlyReads) := by
  have hrates : ∀ side, 0 ≤ (RateLimit.mk 5 5).rate side := by
    intro side
    cases side <;> decide +kernel
  have hsame : (readsAt 0 1).filter (TimedCall.onSide .read) =
      (writelimitAt 0 :: readsAt 0 1).filter (TimedCall.onSide .read) := rfl
  have hts : runLimiter plainHost 2 (create ⟨5, 5⟩ 0) (readsAt 0 1) = .ok earlyReads := by
    decide +kernel
  have hus : runLimiter plainHost 2 (create ⟨5, 5⟩ 0) (writelimitAt 0 :: readsAt 0 1) =
      .ok (⟨.limit .write, [], create ⟨5, 5⟩ 0⟩ :: earlyReads) := by
    decide +kernel
  exact limits_independent plainHost_monotone hrates hsame hts hus (by decide +kernel)
    (by decide +kernel) (by decide +kernel) (by decide +kernel)

theorem throughput_bounded_early : ThroughputBounded 5 0 .read earlyReads := by
  have hrate : 0 < (RateLimit.mk 5 5).rate .read := by decide +kernel
  have hts : runLimiter plainHost 2 (create ⟨5, 5⟩ 0) (readsAt 0 1) = .ok earlyReads := by
    decide +kernel
  exact (throughput_bounded plainHost_monotone hrate (by decide +kernel) hts).1

/-- A limit on the writes keeps five of the hundred seconds' credit; what is
read at once is then five units short, for which the limit on the reads sleeps
as it does not without. -/
theorem writelimit_noticed :
    (runLimiter plainHost 2 (create ⟨5, 5⟩ 0) (readsAt 100 100)).map (sleepsOn .read) =
        .ok [[], []] ∧
      (runLimiter plainHost 2 (create ⟨5, 5⟩ 0) (writelimitAt 100 :: readsAt 100 100)).map
        (sleepsOn .read) = .ok [[], [1]] ∧
      (readsAt 100 100).filter (TimedCall.onSide .read) =
        (writelimitAt 100 :: readsAt 100 100).filter (TimedCall.onSide .read) ∧
      forward plainHost 2 (create ⟨5, 5⟩ 0) (readsAt 100 100) = true ∧
      forward plainHost 2 (create ⟨5, 5⟩ 0) (writelimitAt 100 :: readsAt 100 100) = true := by
  refine ⟨by decide +kernel, by decide +kernel, rfl, by decide +kernel, by decide +kernel⟩

end DdbShell
