import DdbShell.Calls
import DdbShell.Lib.TokenBucket

/-!
The rate limiter: a read and a write bucket that one refresh fills, and calls
that wait until the bucket they are about is out of debt. The clock and the
sleep are those of a host whose state they change, and the arithmetic is exact.
What a call makes of one bucket is one refill, whatever the other one needs, and
from this follow that the calls return, how much can be spent, and when the
buckets do not notice each other.
-/

namespace DdbShell

/-- The rates of a WITH RATELIMIT clause. -/
structure RateLimit where
  rcu : Double
  wcu : Double
  deriving DecidableEq, Repr

structure RateLimiter where
  rcu : Double
  wcu : Double
  readTokens : Double := 0
  writeTokens : Double := 0
  last : Double
  deriving DecidableEq, Repr

/-- Which of the two buckets. -/
inductive Side where
  | read
  | write
  deriving DecidableEq, Repr

/-- What the limiter is given: a clock to look at, and a sleep. -/
structure Host (σ : Type) where
  now : σ → Double
  look : σ → σ
  sleep : Double → σ → σ

/-- Why a call has not returned. -/
inductive Stop where
  | running
  | divisionByZero
  deriving DecidableEq, Repr

/-- A call has returned, after some sleeps. -/
structure Waited (σ : Type) where
  limiter : RateLimiter
  world : σ
  slept : List Double

def divide (a b : Double) : Except Stop Double :=
  if b = 0 then .error .divisionByZero else .ok (a / b)

namespace RateLimit

def rate (limit : RateLimit) : Side → Double
  | .read => limit.rcu
  | .write => limit.wcu

end RateLimit

namespace RateLimiter

def rate (l : RateLimiter) : Side → Double
  | .read => l.rcu
  | .write => l.wcu

def tokens (l : RateLimiter) : Side → Double
  | .read => l.readTokens
  | .write => l.writeTokens

def setTokens (l : RateLimiter) (tokens : Double) : Side → RateLimiter
  | .read => { l with readTokens := tokens }
  | .write => { l with writeTokens := tokens }

/-- A limiter that is made at a time. -/
def create (limit : RateLimit) (start : Double) : RateLimiter where
  rcu := limit.rcu
  wcu := limit.wcu
  last := start

/-- Nothing is taken for a capacity or a figure that is missing. -/
def units (cc : Option ConsumedCapacity) : Double :=
  (cc.bind fun capacity => capacity.capacityUnits).getD 0

def consume (side : Side) (cc : Option ConsumedCapacity) (l : RateLimiter) : RateLimiter :=
  l.setTokens (l.tokens side - units cc) side

def consumeReads (cc : Option ConsumedCapacity) (l : RateLimiter) : RateLimiter :=
  l.consume .read cc

def consumeWrites (cc : Option ConsumedCapacity) (l : RateLimiter) : RateLimiter :=
  l.consume .write cc

/-- Both buckets are filled, each up to its own rate. -/
def refreshAt (now : Double) (l : RateLimiter) : RateLimiter :=
  let elapsed := now - l.last
  { l with
    readTokens := min (l.readTokens + elapsed * l.rcu) l.rcu
    writeTokens := min (l.writeTokens + elapsed * l.wcu) l.wcu
    last := now }

section Calls

variable {σ : Type} (host : Host σ)

def refresh (l : RateLimiter) (s : σ) : RateLimiter × σ := (l.refreshAt (host.now s), host.look s)

/-- The sleep at the top of the loop: none if the bucket is out of debt. -/
def pause (side : Side) (l : RateLimiter) (s : σ) : Except Stop (List Double × σ) :=
  if l.tokens side < 0 then
    (divide (-l.tokens side) (l.rate side)).map fun d => ([d], host.sleep d s)
  else .ok ([], s)

/-- The `do … while` of a limit, for as many turns as there is fuel. -/
def waitLoop (side : Side) : Nat → RateLimiter → σ → Except Stop (Waited σ)
  | 0, _, _ => .error .running
  | fuel + 1, l, s => do
      let (slept, s) ← pause host side l s
      let (l, s) := l.refresh host s
      if l.tokens side < 0 then
        (waitLoop side fuel l s).map fun w => { w with slept := slept ++ w.slept }
      else return ⟨l, s, slept⟩

/-- A rate of zero disables the limit. -/
def limit (side : Side) (fuel : Nat) (l : RateLimiter) (s : σ) : Except Stop (Waited σ) :=
  let (l, s) := l.refresh host s
  if l.rate side = 0 ∨ 0 ≤ l.tokens side then .ok ⟨l, s, []⟩
  else waitLoop host side fuel l s

def readlimit (fuel : Nat) (l : RateLimiter) (s : σ) : Except Stop (Waited σ) :=
  l.limit host .read fuel s

def writelimit (fuel : Nat) (l : RateLimiter) (s : σ) : Except Stop (Waited σ) :=
  l.limit host .write fuel s

end Calls

/-- One of the two buckets, with the refresh time that it shares. -/
def bucket (l : RateLimiter) (side : Side) : TokenBucket Double :=
  ⟨l.rate side, l.tokens side, l.last⟩

section Fields

variable (l : RateLimiter) (side : Side) (now : Double) (cc : Option ConsumedCapacity)

@[simp] theorem bucket_rate : (l.bucket side).rate = l.rate side := rfl
@[simp] theorem bucket_level : (l.bucket side).level = l.tokens side := rfl
@[simp] theorem bucket_last : (l.bucket side).last = l.last := rfl

@[simp] theorem refreshAt_rate : (l.refreshAt now).rate side = l.rate side := by
  cases side <;> rfl

@[simp] theorem refreshAt_last : (l.refreshAt now).last = now := rfl

@[simp] theorem bucket_refreshAt :
    (l.refreshAt now).bucket side = (l.bucket side).refill now := by
  cases side <;> rfl

@[simp] theorem consume_rate (other : Side) : (l.consume other cc).rate side = l.rate side := by
  cases side <;> cases other <;> rfl

@[simp] theorem consume_last (other : Side) : (l.consume other cc).last = l.last := by
  cases other <;> rfl

theorem bucket_consume : (l.consume side cc).bucket side = (l.bucket side).spend (units cc) := by
  cases side <;> rfl

theorem bucket_consume_of_ne {other : Side} (h : other ≠ side) :
    (l.consume other cc).bucket side = l.bucket side := by
  cases side <;> cases other <;> first | rfl | exact absurd rfl h

theorem create_rate (limit : RateLimit) (start : Double) :
    (create limit start).rate side = limit.rate side := by
  cases side <;> rfl

theorem create_tokens (limit : RateLimit) (start : Double) :
    (create limit start).tokens side = 0 := by
  cases side <;> rfl

end Fields

end RateLimiter

/-! ### Runs -/

/-- `consume_reads`, `consume_writes`, `readlimit` and `writelimit`. -/
inductive LimiterCall where
  | consume (side : Side) (cc : Option ConsumedCapacity)
  | limit (side : Side)
  deriving DecidableEq, Repr

def LimiterCall.side : LimiterCall → Side
  | .consume side _ => side
  | .limit side => side

/-- What a call takes from a bucket. -/
def LimiterCall.taken (side : Side) : LimiterCall → Double
  | .consume other cc => if other = side then RateLimiter.units cc else 0
  | .limit _ => 0

/-- A call, and the world in which it is made. -/
structure TimedCall (σ : Type) where
  call : LimiterCall
  world : σ

/-- A call that has returned: the sleeps it asked for and the limiter after it. -/
structure Returned where
  call : LimiterCall
  slept : List Double
  after : RateLimiter
  deriving DecidableEq, Repr

section Runs

variable {σ : Type} (host : Host σ) (fuel : Nat)

def perform (l : RateLimiter) (t : TimedCall σ) : Except Stop Returned :=
  match t.call with
  | .consume side cc => .ok ⟨t.call, [], l.consume side cc⟩
  | .limit side => (l.limit host side fuel t.world).map fun w => ⟨t.call, w.slept, w.limiter⟩

/-- The calls in order, up to one that does not return. -/
def runLimiter : RateLimiter → List (TimedCall σ) → Except Stop (List Returned)
  | _, [] => .ok []
  | l, t :: ts => do
      let r ← perform host fuel l t
      let rs ← runLimiter r.after ts
      return r :: rs

/-- The clock is never behind the last refresh when a call is made. -/
def forward : RateLimiter → List (TimedCall σ) → Bool
  | _, [] => true
  | l, t :: ts => decide (l.last ≤ host.now t.world) &&
      match perform host fuel l t with
      | .ok r => forward r.after ts
      | .error _ => true

theorem forward_single {l : RateLimiter} {t : TimedCall σ} (h : l.last ≤ host.now t.world) :
    forward host fuel l [t] = true := by
  rw [forward, decide_eq_true h, Bool.true_and]
  split <;> rfl

/-- The clock is forward at the first call, and after it. -/
theorem forward_cons {l : RateLimiter} {t : TimedCall σ} {ts : List (TimedCall σ)}
    (h : forward host fuel l (t :: ts) = true) :
    l.last ≤ host.now t.world ∧
      ∀ r, perform host fuel l t = .ok r → forward host fuel r.after ts = true := by
  rw [forward, Bool.and_eq_true, decide_eq_true_eq] at h
  refine ⟨h.1, fun r hr => ?_⟩
  have hrest := h.2
  rwa [hr] at hrest

end Runs

/-- The clock never goes back. -/
structure Host.Monotone {σ : Type} (host : Host σ) : Prop where
  look : ∀ s, host.now s ≤ host.now (host.look s)
  sleep : ∀ d s, host.now s ≤ host.now (host.sleep d s)

/-- A sleep takes at least the time that it was asked for. -/
def Host.Sleeps {σ : Type} (host : Host σ) : Prop :=
  ∀ d s, host.now s + d ≤ host.now (host.sleep d s)

/-! ### What a call makes of a bucket -/

namespace RateLimiter

variable {σ : Type} {host : Host σ} {side : Side} {l : RateLimiter} {s : σ} {fuel : Nat}
  {w : Waited σ}

/-- A loop that returns has slept, has refilled both buckets, and has gone on
only while its own was in debt. -/
theorem waitLoop_cases (h : waitLoop host side (fuel + 1) l s = .ok w) :
    ∃ slept s', pause host side l s = .ok (slept, s') ∧
      ((0 ≤ (l.refreshAt (host.now s')).tokens side ∧
          w = ⟨l.refreshAt (host.now s'), host.look s', slept⟩) ∨
        (l.refreshAt (host.now s')).tokens side < 0 ∧
          ∃ w', waitLoop host side fuel (l.refreshAt (host.now s')) (host.look s') = .ok w' ∧
            w = { w' with slept := slept ++ w'.slept }) := by
  rw [waitLoop] at h
  obtain ⟨⟨slept, s'⟩, hpause, h⟩ := bind_eq_ok h
  refine ⟨slept, s', hpause, ?_⟩
  dsimp only [refresh] at h
  split at h
  · next hdebt =>
      obtain ⟨w', hw', rfl⟩ := map_eq_ok h
      exact .inr ⟨hdebt, w', hw', rfl⟩
  · next hdebt =>
      cases h
      exact .inl ⟨not_lt.mp hdebt, rfl⟩

theorem limit_cases (h : l.limit host side fuel s = .ok w) :
    ((l.rate side = 0 ∨ 0 ≤ (l.refreshAt (host.now s)).tokens side) ∧
        w = ⟨l.refreshAt (host.now s), host.look s, []⟩) ∨
      ¬(l.rate side = 0 ∨ 0 ≤ (l.refreshAt (host.now s)).tokens side) ∧
        waitLoop host side fuel (l.refreshAt (host.now s)) (host.look s) = .ok w := by
  unfold limit at h
  dsimp only [refresh] at h
  rw [refreshAt_rate] at h
  split at h
  · next hdone =>
      cases h
      exact .inl ⟨hdone, rfl⟩
  · next hdone => exact .inr ⟨hdone, h⟩

theorem pause_now (hhost : host.Monotone) {slept : List Double} {s' : σ}
    (h : pause host side l s = .ok (slept, s')) : host.now s ≤ host.now s' := by
  unfold pause at h
  split at h
  · obtain ⟨d, -, hd⟩ := map_eq_ok h
    cases hd
    exact hhost.sleep d s
  · cases h
    exact le_rfl

/-- A loop is one refill of each bucket, at its last look at the clock. -/
theorem waitLoop_bucket (hhost : host.Monotone) {other : Side} (hrate : 0 ≤ l.rate other)
    (hlast : l.last ≤ host.now s) (h : waitLoop host side fuel l s = .ok w) :
    l.last ≤ w.limiter.last ∧ w.limiter.bucket other = (l.bucket other).refill w.limiter.last := by
  induction fuel generalizing l s w with
  | zero => cases h
  | succ fuel ih =>
      obtain ⟨slept, s', hpause, ⟨-, rfl⟩ | ⟨-, w', hw', rfl⟩⟩ := waitLoop_cases h
      · exact ⟨hlast.trans (pause_now hhost hpause), bucket_refreshAt _ _ _⟩
      · have hlast' : l.last ≤ host.now s' := hlast.trans (pause_now hhost hpause)
        obtain ⟨hle, hbucket⟩ := ih (by rwa [refreshAt_rate]) (hhost.look s') hw'
        refine ⟨hlast'.trans hle, ?_⟩
        rw [hbucket, bucket_refreshAt]
        exact TokenBucket.refill_refill hrate hle

/-- So is a call that limits. -/
theorem limit_bucket (hhost : host.Monotone) {other : Side} (hrate : 0 ≤ l.rate other)
    (hlast : l.last ≤ host.now s) (h : l.limit host side fuel s = .ok w) :
    l.last ≤ w.limiter.last ∧ w.limiter.bucket other = (l.bucket other).refill w.limiter.last := by
  rcases limit_cases h with ⟨-, rfl⟩ | ⟨-, hloop⟩
  · exact ⟨hlast, bucket_refreshAt _ _ _⟩
  · obtain ⟨hle, hbucket⟩ := waitLoop_bucket hhost (by rwa [refreshAt_rate]) (hhost.look s) hloop
    refine ⟨hlast.trans hle, ?_⟩
    rw [hbucket, bucket_refreshAt]
    exact TokenBucket.refill_refill hrate hle

/-- A call that returns leaves its bucket out of debt, or does not limit. -/
theorem waitLoop_settled (h : waitLoop host side fuel l s = .ok w) :
    0 ≤ w.limiter.tokens side := by
  induction fuel generalizing l s w with
  | zero => cases h
  | succ fuel ih =>
      obtain ⟨slept, s', -, ⟨hlevel, rfl⟩ | ⟨-, w', hw', rfl⟩⟩ := waitLoop_cases h
      · exact hlevel
      · show 0 ≤ w'.limiter.tokens side
        exact ih hw'

theorem waitLoop_rate (other : Side) (h : waitLoop host side fuel l s = .ok w) :
    w.limiter.rate other = l.rate other := by
  induction fuel generalizing l s w with
  | zero => cases h
  | succ fuel ih =>
      obtain ⟨slept, s', -, ⟨-, rfl⟩ | ⟨-, w', hw', rfl⟩⟩ := waitLoop_cases h
      · exact refreshAt_rate _ _ _
      · show w'.limiter.rate other = l.rate other
        rw [ih hw', refreshAt_rate]

theorem limit_rate (other : Side) (h : l.limit host side fuel s = .ok w) :
    w.limiter.rate other = l.rate other := by
  rcases limit_cases h with ⟨-, rfl⟩ | ⟨-, hloop⟩
  · exact refreshAt_rate _ _ _
  · rw [waitLoop_rate other hloop, refreshAt_rate]

theorem limit_settled (h : l.limit host side fuel s = .ok w) :
    l.rate side = 0 ∨ 0 ≤ w.limiter.tokens side := by
  rcases limit_cases h with ⟨hdone, rfl⟩ | ⟨-, hloop⟩
  · exact hdone
  · exact .inr (waitLoop_settled hloop)

/-- No more is in a bucket after a loop than its rate. -/
theorem waitLoop_level_le (other : Side) (h : waitLoop host side fuel l s = .ok w) :
    w.limiter.tokens other ≤ l.rate other := by
  induction fuel generalizing l s w with
  | zero => cases h
  | succ fuel ih =>
      obtain ⟨slept, s', -, ⟨-, rfl⟩ | ⟨-, w', hw', rfl⟩⟩ := waitLoop_cases h
      · have hlevel := TokenBucket.refill_level_le (host.now s') (l.bucket other)
        rwa [← bucket_refreshAt] at hlevel
      · have hlevel := ih hw'
        rwa [refreshAt_rate] at hlevel

theorem limit_level_le (other : Side) (h : l.limit host side fuel s = .ok w) :
    w.limiter.tokens other ≤ l.rate other := by
  rcases limit_cases h with ⟨-, rfl⟩ | ⟨-, hloop⟩
  · have hlevel := TokenBucket.refill_level_le (host.now s) (l.bucket other)
    rwa [← bucket_refreshAt] at hlevel
  · have hlevel := waitLoop_level_le other hloop
    rwa [refreshAt_rate] at hlevel

/-- A call on a negative rate does not return. -/
theorem limit_of_neg (hrate : l.rate side < 0) : l.limit host side fuel s ≠ .ok w := by
  intro h
  have hcap := limit_level_le side h
  rcases limit_settled h with hzero | hlevel
  · exact hrate.ne hzero
  · exact absurd (hlevel.trans hcap) (not_le.mpr hrate)

/-- More fuel does not change what is returned. -/
theorem waitLoop_unique {fuel' : Nat} {w' : Waited σ} (h : waitLoop host side fuel l s = .ok w)
    (h' : waitLoop host side fuel' l s = .ok w') : w = w' := by
  induction fuel generalizing l s w fuel' w' with
  | zero => cases h
  | succ fuel ih =>
      cases fuel' with
      | zero => cases h'
      | succ fuel' =>
          obtain ⟨slept, s₁, hpause, hcases⟩ := waitLoop_cases h
          obtain ⟨slept', s₂, hpause', hcases'⟩ := waitLoop_cases h'
          obtain ⟨rfl, rfl⟩ := Prod.mk.inj (Except.ok.inj (hpause.symm.trans hpause'))
          rcases hcases with ⟨hlevel, rfl⟩ | ⟨hdebt, v, hv, rfl⟩ <;>
            rcases hcases' with ⟨hlevel', rfl⟩ | ⟨hdebt', v', hv', rfl⟩
          · rfl
          · exact absurd hlevel (not_le.mpr hdebt')
          · exact absurd hlevel' (not_le.mpr hdebt)
          · rw [ih hv hv']

theorem limit_unique {fuel' : Nat} {w' : Waited σ} (h : l.limit host side fuel s = .ok w)
    (h' : l.limit host side fuel' s = .ok w') : w = w' := by
  rcases limit_cases h with ⟨hdone, rfl⟩ | ⟨hdebt, hloop⟩ <;>
    rcases limit_cases h' with ⟨hdone', rfl⟩ | ⟨hdebt', hloop'⟩
  · rfl
  · exact absurd hdone hdebt'
  · exact absurd hdone' hdebt
  · exact waitLoop_unique hloop hloop'

/-! ### What a call sees of the other bucket -/

theorem pause_congr {l' : RateLimiter} (h : l.bucket side = l'.bucket side) :
    pause host side l s = pause host side l' s := by
  unfold pause
  rw [← bucket_level, ← bucket_rate, h]
  rfl

/-- A loop is told by its own bucket. -/
theorem waitLoop_congr {l' : RateLimiter} (hbucket : l.bucket side = l'.bucket side)
    (h : waitLoop host side fuel l s = .ok w) :
    ∃ w', waitLoop host side fuel l' s = .ok w' ∧ w'.slept = w.slept ∧
      w'.limiter.bucket side = w.limiter.bucket side := by
  induction fuel generalizing l l' s w with
  | zero => cases h
  | succ fuel ih =>
      obtain ⟨slept, s', hpause, hcases⟩ := waitLoop_cases h
      have hfilled : (l.refreshAt (host.now s')).bucket side =
          (l'.refreshAt (host.now s')).bucket side := by
        rw [bucket_refreshAt, bucket_refreshAt, hbucket]
      have hlevel : (l.refreshAt (host.now s')).tokens side =
          (l'.refreshAt (host.now s')).tokens side := congrArg TokenBucket.level hfilled
      rw [waitLoop, ← pause_congr hbucket, hpause]
      rcases hcases with ⟨hdone, rfl⟩ | ⟨hdebt, v, hv, rfl⟩
      · refine ⟨⟨l'.refreshAt (host.now s'), host.look s', slept⟩, ?_, rfl, hfilled.symm⟩
        exact if_neg (not_lt.mpr (hlevel ▸ hdone))
      · obtain ⟨v', hv', hslept, hlast⟩ := ih hfilled hv
        refine ⟨{ v' with slept := slept ++ v'.slept }, ?_, congrArg (slept ++ ·) hslept, hlast⟩
        refine (if_pos (hlevel ▸ hdebt)).trans ?_
        show (waitLoop host side fuel (l'.refreshAt (host.now s')) (host.look s')).map _ = _
        rw [hv']
        rfl

/-- So is a call, by how its bucket fills. -/
theorem limit_congr {l' : RateLimiter} (hbucket : (l.bucket side).Alike (l'.bucket side))
    (hlast : l.last ≤ host.now s) (h : l.limit host side fuel s = .ok w) :
    ∃ w', l'.limit host side fuel s = .ok w' ∧ w'.slept = w.slept ∧
      w'.limiter.bucket side = w.limiter.bucket side := by
  have hfilled : (l.refreshAt (host.now s)).bucket side =
      (l'.refreshAt (host.now s)).bucket side := by
    rw [bucket_refreshAt, bucket_refreshAt]
    exact hbucket.2 _ hlast
  have hlevel : (l.refreshAt (host.now s)).tokens side =
      (l'.refreshAt (host.now s)).tokens side := congrArg TokenBucket.level hfilled
  have hrate : l.rate side = (l'.refreshAt (host.now s)).rate side := by
    rw [refreshAt_rate]
    exact hbucket.1
  rcases limit_cases h with ⟨hdone, rfl⟩ | ⟨hdebt, hloop⟩
  · rw [hrate, hlevel] at hdone
    exact ⟨⟨l'.refreshAt (host.now s), host.look s, []⟩, if_pos hdone, rfl, hfilled.symm⟩
  · obtain ⟨w', hw', hsame⟩ := waitLoop_congr hfilled hloop
    rw [hrate, hlevel] at hdebt
    exact ⟨w', (if_neg hdebt).trans hw', hsame⟩

/-! ### When a call returns -/

/-- One sleep for the debt is enough where the rate is positive. -/
theorem waitLoop_returns (hsleep : host.Sleeps) (hrate : 0 < l.rate side)
    (hdebt : l.tokens side < 0) (hlast : l.last ≤ host.now s) (n : Nat) :
    ∃ w, waitLoop host side (n + 1) l s = .ok w ∧ w.slept = [(l.bucket side).debtTime] := by
  have hpause : pause host side l s =
      .ok ([(l.bucket side).debtTime], host.sleep (l.bucket side).debtTime s) := by
    unfold pause divide
    rw [if_pos hdebt, if_neg hrate.ne']
    rfl
  obtain ⟨s', hs'⟩ : ∃ s', s' = host.sleep (l.bucket side).debtTime s := ⟨_, rfl⟩
  have hwait : (l.bucket side).last + (l.bucket side).debtTime ≤ host.now s' := by
    have hslept := hsleep (l.bucket side).debtTime s
    rw [bucket_last, hs']
    linarith
  have hfilled : 0 ≤ (l.refreshAt (host.now s')).tokens side := by
    have hlevel := TokenBucket.refill_level_nonneg hrate hwait
    rwa [← bucket_refreshAt] at hlevel
  refine ⟨⟨l.refreshAt (host.now s'), host.look s', [(l.bucket side).debtTime]⟩, ?_, rfl⟩
  rw [waitLoop, hpause, ← hs']
  exact if_neg (not_lt.mpr hfilled)

theorem limit_returns (hhost : host.Monotone) (hsleep : host.Sleeps) (hrate : 0 ≤ l.rate side)
    (n : Nat) : ∃ w, l.limit host side (n + 1) s = .ok w ∧ ∀ d ∈ w.slept, 0 ≤ d := by
  have hkeep : (l.refreshAt (host.now s)).rate side = l.rate side := refreshAt_rate _ _ _
  by_cases hdone : (l.refreshAt (host.now s)).rate side = 0 ∨
      0 ≤ (l.refreshAt (host.now s)).tokens side
  · refine ⟨⟨l.refreshAt (host.now s), host.look s, []⟩, if_pos hdone, ?_⟩
    intro d hd
    cases hd
  · obtain ⟨hne, hdebt⟩ := not_or.mp hdone
    rw [hkeep] at hne
    have hpositive : 0 < (l.refreshAt (host.now s)).rate side :=
      hkeep.symm ▸ lt_of_le_of_ne hrate (Ne.symm hne)
    obtain ⟨w, hw, hslept⟩ := waitLoop_returns hsleep hpositive (not_le.mp hdebt)
      (hhost.look s) n
    refine ⟨w, (if_neg hdone).trans hw, fun d hd => ?_⟩
    rw [hslept, List.mem_singleton] at hd
    rw [hd]
    exact TokenBucket.debtTime_nonneg hpositive.le (not_le.mp hdebt).le

end RateLimiter

end DdbShell
