import NMesh.E2e.Pair

/-! # End-to-end sessions heal, where no key is given up

An end takes an answer at most once in a run: it starts attempts only while it has no session, and has one
from then on. Of two ends that both try, the lower ignores the other (`Sound.led`), so that only one takes
an answer at all. That end's key is the one to come: the other holds it, live or parked, and nobody comes
to hold another that data would open (`Paired`). -/

namespace NMesh.E2e.Healing

open Base.Runs Base.BigEndian Base.Ordered NMesh.Cert.Identity NMesh.E2e.Session
open NMesh.E2e.Outcome NMesh.E2e.Pair NMesh.Cert.Store

variable {K : Crypto}

section World

variable (keys : End → Keys K) (kem : Kem)

/-! ### What the two ends stand in -/

/-- Both ends are live, this one with the key that it took and keeps: the other holds that key, and what
this one has parked is of no use to anyone. -/
structure Paired (w : World K) (e : End) (key : Bytes) : Prop where
  live : w.live keys e = some key
  data : ∀ key', w.SaysData keys e key' → key' = key
  holds : w.Holds keys e.other key
  spare : ∀ key' exp, w.cand keys e = some (key', exp) → key' ≠ key ∧
    w.live keys e.other ≠ some key' ∧ ¬ w.SaysData keys e.other key'

structure Sound (w : World K) : Prop where
  only : ∀ e, Only (peer keys e) (w.tables e)
  honest : ∀ p ∈ w.flight, ∃ e, p.srcId = (keys e).id ∧ p.dstId = peer keys e
  closed : ∀ e, w.live keys e ≠ none → w.nonce keys e = none
  hello : ∀ e n secret kemPub, w.Attempt keys e n secret → w.SaysHello keys e n kemPub →
    kemPub = kem.publicOf secret
  answer : ∀ e n secret ciphertext, w.Attempt keys e n secret →
    w.SaysAnswer keys e.other n ciphertext → kem.target ciphertext = kem.publicOf secret
  /-- An end that is not live has answered nothing. -/
  silent : ∀ e, w.live keys e = none → w.cand keys e = none ∧
    (∀ n ciphertext, ¬ w.SaysAnswer keys e n ciphertext) ∧ ∀ key, ¬ w.SaysData keys e key
  /-- The lower end never gives an attempt up before it is live. -/
  lower : ∀ e n kemPub, w.live keys e = none → (keys e).id.raw < (keys e.other).id.raw →
    w.SaysHello keys e n kemPub → w.nonce keys e ≠ none
  /-- Where only the other end is live, its own attempts are ignored here. -/
  led : ∀ e n kemPub, w.live keys e = none → w.live keys e.other ≠ none →
    w.SaysHello keys e.other n kemPub →
      w.nonce keys e ≠ none ∧ (keys e).id.raw < (keys e.other).id.raw
  paired : (∀ e, w.live keys e ≠ none) → ∃ e key, Paired keys w e key

section Steps

variable {keys} {kem} {w : World K} {e : End} {t : Turn K} {flight : List (Packet K)} {env : Env K}

theorem wanted_eq_some {exp : ℚ} : wanted keys w e = some exp ↔
    ∃ key, w.cand keys e = some (key, exp) ∧ w.live keys e.other = some key ∧
      w.live keys e ≠ some key := by
  simp only [wanted, Option.bind_eq_some_iff, Option.ite_none_right_eq_some, Option.some.injEq,
    Prod.exists]
  constructor
  · rintro ⟨key, exp', hc, ⟨hl, hown⟩, rfl⟩
    exact ⟨key, hc, hl, hown⟩
  · rintro ⟨key, hc, hl, hown⟩
    exact ⟨key, exp, hc, ⟨hl, hown⟩, rfl⟩

variable {a : Env K × Act}

theorem not_saysHello (h : Ideal keys kem w a) (e : End) (kemPub : Bytes) :
    ¬ w.SaysHello keys e a.1.urandom kemPub := fun ⟨_, _, hp, hn, _⟩ =>
  h.nonce.1 _ hp (congrArg some hn)

theorem not_saysAnswer (h : Ideal keys kem w a) (e : End) (ciphertext : Bytes) :
    ¬ w.SaysAnswer keys e a.1.urandom ciphertext := fun ⟨_, _, hp, hn, _⟩ =>
  h.nonce.1 _ hp (congrArg some hn)

theorem not_attempt (h : Ideal keys kem w a) (e : End) (secret : Bytes) :
    ¬ w.Attempt keys e a.1.urandom secret := by
  rintro (⟨hn, -⟩ | ⟨exp, hr⟩)
  · exact (h.nonce.2 e).1 hn
  · rw [(h.nonce.2 e).2] at hr
    cases hr

variable {key : Bytes}

theorem not_saysData (h : NewKey keys w key) (e : End) : ¬ w.SaysData keys e key :=
  fun ⟨_, _, hp, hkey⟩ => h.2 _ hp (congrArg some hkey)

theorem Paired.healed (h : Paired keys w e key) : w.Healed keys := by
  intro x k k' hx hx'
  rcases End.eq_or e x with rfl | rfl
  · obtain rfl : key = k := Option.mem_unique h.live hx
    rcases h.holds with hlive | hparked
    · exact .inl (Option.mem_unique hlive hx')
    · exact .inr (.inr hparked)
  · rw [End.other_other] at hx' ⊢
    obtain rfl : key = k' := Option.mem_unique h.live hx'
    rcases h.holds with hlive | hparked
    · exact .inl (Option.mem_unique hx hlive)
    · exact .inr (.inl hparked)

theorem both_live (hown : w.live keys e = some key) (hother : w.live keys e.other ≠ none) (x : End) :
    w.live keys x ≠ none := by
  rcases End.eq_or e x with rfl | rfl
  · rw [hown]
    exact Option.some_ne_none _
  · exact hother

theorem Sound.healed (h : Sound keys kem w) : w.Healed keys := by
  intro x k k' hx hx'
  obtain ⟨e, key, hp⟩ := h.paired (both_live hx (by simp [hx']))
  exact hp.healed x k k' hx hx'

@[simp] theorem put_self : (w.put e t flight).tables e = t.tables := Function.update_self _ _ _

@[simp] theorem put_other : (w.put e t flight).tables e.other = w.tables e.other :=
  Function.update_of_ne (End.other_ne e) _ _

theorem id_inj (hne : (keys .a).id ≠ (keys .b).id) {x y : End} (h : (keys x).id = (keys y).id) :
    x = y := by
  cases x <;> cases y <;> first | rfl | exact absurd h hne | exact absurd h.symm hne

variable {p : Packet K}

theorem mem_put (hsub : ∀ p ∈ flight, p ∈ w.flight) (h : p ∈ (w.put e t flight).flight) :
    p ∈ w.flight ∨ p ∈ t.out.filterMap sent :=
  (List.mem_append.mp h).imp (hsub p) id

/-- What a turn of this end may say. -/
def Sayable (H A : Bytes → Bytes → Prop) (D : Bytes → Prop) : Body K → Prop
  | .handshake (some hello) => H hello.nonce hello.kemPub
  | .handshakeAck (some answer) => A answer.nonce answer.ciphertext
  | .data payload => D payload.session
  | _ => True

structure Adds (keys : End → Keys K) (e : End) (H A : Bytes → Bytes → Prop) (D : Bytes → Prop)
    (w w' : World K) : Prop where
  hello : ∀ x n kemPub, w'.SaysHello keys x n kemPub → w.SaysHello keys x n kemPub ∨ x = e ∧ H n kemPub
  answer : ∀ x n ciphertext, w'.SaysAnswer keys x n ciphertext →
    w.SaysAnswer keys x n ciphertext ∨ x = e ∧ A n ciphertext
  data : ∀ x key, w'.SaysData keys x key → w.SaysData keys x key ∨ x = e ∧ D key
  honest : ∀ p ∈ w'.flight, p ∈ w.flight ∨ p.srcId = (keys e).id ∧ p.dstId = peer keys e

section Saying

variable (hne : (keys .a).id ≠ (keys .b).id) (hsub : ∀ p ∈ flight, p ∈ w.flight)
include hne hsub

theorem adds_put {H A : Bytes → Bytes → Prop} {D : Bytes → Prop} (hout : ∀ p ∈ t.out.filterMap sent,
      (p.srcId = (keys e).id ∧ p.dstId = peer keys e) ∧ Sayable H A D p.body) :
    Adds keys e H A D w (w.put e t flight) where
  hello := by
    rintro x _ _ ⟨dst, hello, hp, rfl, rfl⟩
    rcases mem_put hsub hp with hp | hp
    · exact .inl ⟨dst, hello, hp, rfl, rfl⟩
    · exact .inr ⟨id_inj hne (hout _ hp).1.1, (hout _ hp).2⟩
  answer := by
    rintro x _ _ ⟨dst, answer, hp, rfl, rfl⟩
    rcases mem_put hsub hp with hp | hp
    · exact .inl ⟨dst, answer, hp, rfl, rfl⟩
    · exact .inr ⟨id_inj hne (hout _ hp).1.1, (hout _ hp).2⟩
  data := by
    rintro x _ ⟨dst, payload, hp, rfl⟩
    rcases mem_put hsub hp with hp | hp
    · exact .inl ⟨dst, payload, hp, rfl⟩
    · exact .inr ⟨id_inj hne (hout _ hp).1.1, (hout _ hp).2⟩
  honest p hp := (mem_put hsub hp).imp id fun hp => (hout p hp).1

/-- A turn that sends data only, under this key. -/
theorem sealing_put {key : Option Bytes} (h : OnlyData (keys e) (peer keys e) key t.out) :
    Adds keys e (fun _ _ => False) (fun _ _ => False) (key = some ·) w (w.put e t flight) := by
  refine adds_put hne hsub fun p hp => ?_
  obtain ⟨session, plaintext, hsession, rfl⟩ := h _ hp
  exact ⟨⟨rfl, rfl⟩, hsession⟩

end Saying

/-! ### One turn -/

section Put

variable (w e t flight)

theorem live_self : (w.put e t flight).live keys e = Outcome.live t.tables (peer keys e) := by
  rw [World.live, put_self]

theorem live_other : (w.put e t flight).live keys e.other = w.live keys e.other := by
  rw [World.live, put_other, World.live]

theorem nonce_self : (w.put e t flight).nonce keys e = Outcome.nonce t.tables (peer keys e) := by
  rw [World.nonce, put_self]

theorem nonce_other : (w.put e t flight).nonce keys e.other = w.nonce keys e.other := by
  rw [World.nonce, put_other, World.nonce]

theorem cand_self : (w.put e t flight).cand keys e = Outcome.cand t.tables (peer keys e) := by
  rw [World.cand, put_self]

theorem cand_other : (w.put e t flight).cand keys e.other = w.cand keys e.other := by
  rw [World.cand, put_other, World.cand]

theorem attempt_self (n secret : Bytes) : (w.put e t flight).Attempt keys e n secret ↔
    Outcome.Attempt t.tables (peer keys e) n secret := by
  rw [World.Attempt, put_self]

theorem attempt_other (n secret : Bytes) : (w.put e t flight).Attempt keys e.other n secret ↔
    w.Attempt keys e.other n secret := by
  rw [World.Attempt, put_other, World.Attempt]

theorem holds_other (key : Bytes) :
    (w.put e t flight).Holds keys e.other key ↔ w.Holds keys e.other key := by
  unfold World.Holds World.Parked
  rw [live_other, cand_other]
  rfl

end Put

variable (keys flight) in
theorem attempt_put (h : ∀ n secret, Outcome.Attempt t.tables (peer keys e) n secret →
    w.Attempt keys e n secret) : ∀ x n secret, (w.put e t flight).Attempt keys x n secret →
      w.Attempt keys x n secret := by
  intro x n secret hx
  rcases End.eq_or e x with rfl | rfl
  · exact h n secret ((attempt_self w x t flight n secret).mp hx)
  · exact (attempt_other w e t flight n secret).mp hx

theorem only_put (h : ∀ x, Only (peer keys x) (w.tables x)) (honly : Only (peer keys e) t.tables) :
    ∀ x, Only (peer keys x) ((w.put e t flight).tables x) := by
  intro x
  rcases End.eq_or e x with rfl | rfl
  · rw [put_self]
    exact honly
  · rw [put_other]
    exact h _

variable {H A : Bytes → Bytes → Prop} {D : Bytes → Prop} {w' : World K}

theorem Adds.sound_honest (h : Sound keys kem w) (hs : Adds keys e H A D w w') :
    ∀ p ∈ w'.flight, ∃ x, p.srcId = (keys x).id ∧ p.dstId = peer keys x := by
  intro p hp
  rcases hs.honest p hp with hp | hp
  · exact h.honest p hp
  · exact ⟨e, hp⟩

theorem Adds.no_hello (hs : Adds keys e (fun _ _ => False) A D w w') (x : End) (n kemPub : Bytes)
    (h : w'.SaysHello keys x n kemPub) : w.SaysHello keys x n kemPub :=
  (hs.hello x n kemPub h).resolve_right (·.2)

theorem Adds.no_answer (hs : Adds keys e H (fun _ _ => False) D w w') (x : End) (n ct : Bytes)
    (h : w'.SaysAnswer keys x n ct) : w.SaysAnswer keys x n ct :=
  (hs.answer x n ct h).resolve_right (·.2)

theorem closed_put (h : Sound keys kem w) (hn : Outcome.live t.tables (peer keys e) ≠ none →
    Outcome.nonce t.tables (peer keys e) = none) (x : End) (hx : (w.put e t flight).live keys x ≠ none) :
    (w.put e t flight).nonce keys x = none := by
  rcases End.eq_or e x with rfl | rfl
  · rw [live_self] at hx
    rw [nonce_self]
    exact hn hx
  · rw [live_other] at hx
    rw [nonce_other]
    exact h.closed _ hx

/-- Who is not live after an end became it is the other one. -/
theorem dead_put (hlive : (w.put e t flight).live keys e = some key) {x : End}
    (hx : (w.put e t flight).live keys x = none) : x = e.other ∧ w.live keys e.other = none := by
  rcases End.eq_or e x with rfl | rfl
  · rw [hlive] at hx
    cases hx
  · rw [live_other] at hx
    exact ⟨rfl, hx⟩

section Turns

variable (hne : (keys .a).id ≠ (keys .b).id) (h : Sound keys kem w)
  (hsub : ∀ p ∈ flight, p ∈ w.flight) (honly : Only (peer keys e) t.tables)
include hne h hsub honly

/-- **Nothing happens**, but for data sent or an expired candidate forgotten. -/
theorem Sound.idle (hi : Idle (keys e) { env with monotonic := w.clock e } (peer keys e) (w.tables e) t) :
    Sound keys kem (w.put e t flight) := by
  have hs := sealing_put hne hsub hi.out
  have hattempt := attempt_put keys flight hi.attempt
  have hlive : ∀ x, (w.put e t flight).live keys x = w.live keys x := by
    intro x
    rcases End.eq_or e x with rfl | rfl
    · exact (live_self _ _ _ _).trans hi.live
    · exact live_other _ _ _ _
  have hcand : ∀ x v, (w.put e t flight).cand keys x = some v → w.cand keys x = some v := by
    intro x v hv
    rcases End.eq_or e x with rfl | rfl
    · rw [cand_self] at hv
      rcases hi.cand with hc | ⟨hc, -⟩
      · exact hc.symm.trans hv
      · rw [hc] at hv
        cases hv
    · exact (cand_other w e t flight) ▸ hv
  have hnonce : ∀ x, w.nonce keys x ≠ none → (keys x).id.raw < (keys x.other).id.raw →
      (w.put e t flight).nonce keys x ≠ none := by
    intro x hx hlt
    rcases End.eq_or e x with rfl | rfl
    · rw [nonce_self]
      rcases hi.nonce with hn | ⟨-, hglare⟩
      · rw [hn]
        exact hx
      · obtain ⟨n, hn⟩ := Option.ne_none_iff_exists'.mp hx
        have hkey := Dict.mem_keys_of_get? (show (w.tables x).e2ePendingNonce.get? _ = some n from hn)
        simp only [Turn.glare, decide_eq_false_iff_not, not_and] at hglare
        exact absurd hlt (hglare hkey)
    · rw [nonce_other]
      exact hx
  refine ⟨only_put h.only honly, hs.sound_honest h, fun x hx => ?_, ?_, ?_, fun x hx => ?_, ?_, ?_,
    fun hall => ?_⟩
  · refine closed_put h (fun hl => ?_) x hx
    have hn := h.closed e fun hx => hl (hi.live.trans hx)
    rcases hi.nonce with hn' | ⟨hn', -⟩
    · exact hn'.trans hn
    · exact hn'
  · exact fun x n secret kemPub ha htold => h.hello x n secret kemPub (hattempt _ _ _ ha) (hs.no_hello _ _ _ htold)
  · exact fun x n secret ct ha htold => h.answer x n secret ct (hattempt _ _ _ ha) (hs.no_answer _ _ _ htold)
  · rw [hlive] at hx
    obtain ⟨hc, ha, hd⟩ := h.silent x hx
    refine ⟨?_, fun n ct htold => ha n ct (hs.no_answer _ _ _ htold), fun key htold => ?_⟩
    · cases hcx : (w.put e t flight).cand keys x with
      | none => rfl
      | some v => rw [hcand x v hcx] at hc; cases hc
    · rcases hs.data _ _ htold with htold | ⟨rfl, hkey⟩
      · exact hd key htold
      · rw [show Outcome.live (w.tables x) (peer keys x) = none from hx] at hkey
        cases hkey
  · intro x n kemPub hx hlt htold
    rw [hlive] at hx
    exact hnonce x (h.lower x n kemPub hx hlt (hs.no_hello _ _ _ htold)) hlt
  · intro x n kemPub hx hx' htold
    rw [hlive] at hx hx'
    obtain ⟨hn, hlt⟩ := h.led x n kemPub hx hx' (hs.no_hello _ _ _ htold)
    exact ⟨hnonce x hn hlt, hlt⟩
  · obtain ⟨i, key, hp⟩ := h.paired fun x => hlive x ▸ hall x
    refine ⟨i, key, by rw [hlive]; exact hp.live, fun key' htold => ?_, ?_, fun key' exp hc => ?_⟩
    · rcases hs.data _ _ htold with htold | ⟨rfl, hkey⟩
      · exact hp.data key' htold
      · exact (Option.mem_unique hp.live hkey).symm
    · rcases hp.holds with hl | ⟨exp, hc, hexp⟩
      · exact .inl (by rw [hlive]; exact hl)
      · refine .inr ⟨exp, ?_, hexp⟩
        rcases End.eq_or e i.other with hie | hie
        · rw [hie] at hc ⊢
          rw [cand_self]
          rcases hi.cand with hc' | ⟨-, key', exp', hc', hexp'⟩
          · exact hc'.trans hc
          · obtain ⟨-, rfl⟩ := Prod.mk.inj (Option.mem_unique hc hc')
            rw [hie] at hexp
            exact absurd hexp (not_lt.mpr hexp')
        · rw [hie] at hc ⊢
          rw [cand_other]
          exact hc
    · obtain ⟨h1, h2, h3⟩ := hp.spare key' exp (hcand i _ hc)
      refine ⟨h1, by rw [hlive]; exact h2, fun htold => ?_⟩
      rcases hs.data _ _ htold with htold | ⟨hie, hkey⟩
      · exact h3 htold
      · rw [hie] at h2
        exact h2 hkey

theorem Sound.initiates {a : Act} (hideal : Ideal keys kem w (env, a))
    (hi : Initiates (keys e) { env with monotonic := w.clock e } (peer keys e) (w.tables e) t) :
    Sound keys kem (w.put e t flight) := by
  obtain ⟨new, hout, hnonce, hkem⟩ := hi.out
  have hdead : w.live keys e = none := hi.dead
  have hdead' : (w.put e t flight).live keys e = none := (live_self _ _ _ _).trans hi.live
  have hs : Adds keys e (fun n kemPub => n = env.urandom ∧ kemPub = env.kemPair.1) (fun _ _ => False)
      (fun _ => False) w (w.put e t flight) := by
    refine adds_put hne hsub fun p hp => ?_
    rw [hout] at hp
    cases List.mem_singleton.mp hp
    exact ⟨⟨rfl, rfl⟩, hnonce, hkem⟩
  have hattempt : ∀ x n secret, (w.put e t flight).Attempt keys x n secret →
      w.Attempt keys x n secret ∨ x = e ∧ n = env.urandom ∧ secret = env.kemPair.2 := by
    intro x n secret ha
    rcases End.eq_or e x with rfl | rfl
    · rcases hi.attempt n secret ((attempt_self w x t flight n secret).mp ha) with hnew | hold
      · exact .inr ⟨rfl, hnew⟩
      · exact .inl hold
    · exact .inl ((attempt_other w e t flight n secret).mp ha)
  refine ⟨only_put h.only honly, hs.sound_honest h, closed_put h fun hl => absurd hi.live hl,
    fun x n secret kemPub ha htold => ?_,
    fun x n secret ct ha htold => ?_, fun x hx => ?_, fun x n kemPub hx hlt htold => ?_,
    fun x n kemPub hx hx' htold => ?_, fun hall => absurd hdead' (hall e)⟩
  · rcases hattempt x n secret ha with hold | ⟨rfl, rfl, rfl⟩
    · rcases hs.hello x n kemPub htold with hsaid | ⟨rfl, rfl, rfl⟩
      · exact h.hello x n secret kemPub hold hsaid
      · exact absurd hold (not_attempt hideal x secret)
    · rcases hs.hello x _ kemPub htold with hsaid | ⟨-, -, rfl⟩
      · exact absurd hsaid (not_saysHello hideal x kemPub)
      · exact hideal.pair
  · rcases hattempt x n secret ha with ha | ⟨rfl, rfl, rfl⟩
    · exact h.answer x n secret ct ha (hs.no_answer _ _ _ htold)
    · exact absurd (hs.no_answer _ _ _ htold) (not_saysAnswer hideal x.other ct)
  · have hx' : w.live keys x = none := by
      rcases End.eq_or e x with rfl | rfl
      · exact hdead
      · rwa [live_other] at hx
    obtain ⟨hc, ha, hd⟩ := h.silent x hx'
    refine ⟨?_, fun n ct htold => ha n ct (hs.no_answer _ _ _ htold), fun key htold => hd key ((hs.data _ _ htold).resolve_right (·.2))⟩
    rcases End.eq_or e x with rfl | rfl
    · rw [cand_self, hi.cand]
      exact hc
    · rw [cand_other]
      exact hc
  · rcases End.eq_or e x with rfl | rfl
    · rw [nonce_self, hi.nonce]
      exact Option.some_ne_none _
    · rw [live_other] at hx
      rw [nonce_other]
      rcases hs.hello _ n kemPub htold with htold | ⟨heq, -⟩
      · exact h.lower _ n kemPub hx hlt htold
      · exact absurd heq (End.other_ne e)
  · rcases End.eq_or e x with rfl | rfl
    · rw [nonce_self, hi.nonce]
      refine ⟨Option.some_ne_none _, ?_⟩
      rw [live_other] at hx'
      rcases hs.hello _ n kemPub htold with htold | ⟨heq, -⟩
      · exact (h.led x n kemPub hdead hx' htold).2
      · exact absurd heq (End.other_ne x)
    · rw [End.other_other] at hx'
      exact absurd hdead' hx'

/-- **A handshake is answered**: by an end that was not live, which the other then follows; or beside a
live key, and the candidate parked over was not wanted. -/
theorem Sound.responds {a : Act} (hideal : Ideal keys kem w (env, a)) {hello : Hello K} {ciphertext shared : Bytes}
    (htold : w.SaysHello keys e.other hello.nonce hello.kemPub)
    (hr : Responds (keys e) { env with monotonic := w.clock e } (peer keys e) (w.tables e) t hello
      ciphertext shared) (hkeep : wanted keys w e = none) :
    Sound keys kem (w.put e t flight) := by
  obtain ⟨htarget, -, hnew⟩ := hideal.encapsulates _ _ _ hr.kem
  have hlive : (w.put e t flight).live keys e = some ((w.live keys e).getD shared) :=
    (live_self _ _ _ _).trans hr.live
  have hattempt := attempt_put keys flight hr.attempt
  have hadd : Adds keys e (fun _ _ => False) (fun n ct => n = hello.nonce ∧ ct = ciphertext)
      (· = (w.live keys e).getD shared) w (w.put e t flight) := by
    refine adds_put hne hsub fun p hp => ?_
    rcases hr.out p hp with ⟨answer, rfl, hn, hct⟩ | ⟨plaintext, rfl⟩
    · exact ⟨⟨rfl, rfl⟩, hn, hct⟩
    · exact ⟨⟨rfl, rfl⟩, rfl⟩
  have hdata := hadd.data
  -- an end that is below the other and has an attempt in flight would have ignored the handshake
  have hglare : w.nonce keys e ≠ none → ¬ (keys e).id.raw < (keys e.other).id.raw := by
    intro hn hlt
    obtain ⟨n, hn⟩ := Option.ne_none_iff_exists'.mp hn
    have hkey := Dict.mem_keys_of_get? (show (w.tables e).e2ePendingNonce.get? _ = some n from hn)
    have hg := hr.glare
    simp only [Turn.glare, decide_eq_false_iff_not, not_and] at hg
    exact hg hkey hlt
  refine ⟨only_put h.only honly, hadd.sound_honest h, closed_put h fun _ => hr.nonce,
    fun x n secret kemPub ha htold => h.hello x n secret kemPub (hattempt _ _ _ ha) (hadd.no_hello _ _ _ htold),
    fun x n secret ct ha hs => ?_, fun x hx => ?_, fun x n kemPub hx hlt hs => ?_,
    fun x n kemPub hx hx' hs => ?_, fun hall => ?_⟩
  · rcases hadd.answer _ _ _ hs with hs | ⟨hx, rfl, rfl⟩
    · exact h.answer x n secret ct (hattempt _ _ _ ha) hs
    · have hx : x = e.other := by rw [← hx, End.other_other]
      subst hx
      rw [htarget]
      exact h.hello _ _ secret _ (hattempt _ _ _ ha) htold
  · obtain ⟨rfl, hlost⟩ := dead_put hlive hx
    obtain ⟨hc, ha, hd⟩ := h.silent _ hlost
    refine ⟨by rw [cand_other]; exact hc, fun n ct hs => ?_, fun key hs => ?_⟩
    · rcases hadd.answer _ _ _ hs with hs | ⟨heq, -⟩
      · exact ha n ct hs
      · exact End.other_ne e heq
    · rcases hdata _ _ hs with hs | ⟨heq, -⟩
      · exact hd key hs
      · exact End.other_ne e heq
  · obtain ⟨rfl, hlost⟩ := dead_put hlive hx
    rw [nonce_other]
    exact h.lower _ n kemPub hlost hlt (hadd.no_hello _ _ _ hs)
  · obtain ⟨rfl, hlost⟩ := dead_put hlive hx
    rw [nonce_other]
    have hs := hadd.no_hello _ _ _ hs
    rw [End.other_other] at hs ⊢
    by_cases hdead : w.live keys e = none
    · -- neither end was live: the lower one is the one whose handshake was answered
      by_cases hlt : (keys e).id.raw < (keys e.other).id.raw
      · exact absurd hlt (hglare (h.lower e n kemPub hdead hlt hs))
      · have hids : (keys e).id.raw ≠ (keys e.other).id.raw := fun heq =>
          End.other_ne e (id_inj hne (NodeID.ext heq)).symm
        have hgt : (keys e.other).id.raw < (keys e).id.raw :=
          Std.lt_of_le_of_ne hlt (Ne.symm hids)
        refine ⟨h.lower e.other _ _ hlost ?_ htold, hgt⟩
        rw [End.other_other]
        exact hgt
    · have hled := h.led e.other n kemPub hlost
      rw [End.other_other] at hled
      exact hled hdead hs
  · have hother : w.live keys e.other ≠ none := by
      have := hall e.other
      rwa [live_other] at this
    cases hown : w.live keys e with
    | none =>
      obtain ⟨hn, hlt⟩ := h.led e _ _ hown hother htold
      exact absurd hlt (hglare hn)
    | some own =>
      rw [hown, Option.getD_some] at hlive
      simp only [hown, Option.getD_some] at hdata
      have hcand : (w.put e t flight).cand keys e = some (shared, w.clock e + e2eRekeyTtl) := by
        rw [cand_self, hr.cand, if_pos]
        rw [show Outcome.live (w.tables e) (peer keys e) = some own from hown]
        rfl
      obtain ⟨i, key, hp⟩ := h.paired (both_live hown hother)
      refine ⟨i, key, ?_⟩
      rcases End.eq_or e i with rfl | rfl
      · obtain rfl : key = own := Option.mem_unique hp.live hown
        refine ⟨hlive, fun key' hs => ?_, (holds_other _ _ _ _ _).mpr hp.holds, fun key' exp hc => ?_⟩
        · rcases hdata _ _ hs with hs | ⟨-, hkey⟩
          · exact hp.data key' hs
          · exact hkey
        · obtain ⟨rfl, -⟩ := Prod.mk.inj (Option.mem_unique hcand hc)
          refine ⟨fun heq => hnew.1 i (heq ▸ hown), ?_, fun hs => ?_⟩
          · rw [live_other]
            exact hnew.1 i.other
          · rcases hdata _ _ hs with hs | ⟨heq, -⟩
            · exact not_saysData hnew i.other hs
            · exact End.other_ne i heq
      · have hholds : w.live keys e = some key := by
          have hholds := hp.holds
          rw [End.other_other] at hholds
          rcases hholds with hl | ⟨exp, hc, -⟩
          · exact hl
          · by_contra hl
            rw [wanted_eq_some.mpr ⟨key, hc, hp.live, hl⟩] at hkeep
            cases hkeep
        obtain rfl : own = key := Option.mem_unique hown hholds
        refine ⟨by rw [live_other]; exact hp.live, fun key' hs => ?_, ?_, fun key' exp hc => ?_⟩
        · rcases hdata _ _ hs with hs | ⟨heq, -⟩
          · exact hp.data key' hs
          · exact absurd heq (End.other_ne e)
        · rw [End.other_other]
          exact .inl hlive
        · rw [cand_other] at hc
          obtain ⟨h1, h2, h3⟩ := hp.spare key' exp hc
          rw [End.other_other] at h2 h3 ⊢
          refine ⟨h1, fun hl => h1 (Option.mem_unique hlive hl).symm, fun hs => ?_⟩
          rcases hdata _ _ hs with hs | ⟨-, hkey⟩
          · exact h3 hs
          · exact h1 hkey

/-- **An answer is taken**, while the end that gave it holds its key. -/
theorem Sound.adopts (hopen : ∀ e, Opens kem (keys e)) {answer : Answer K} {secret shared : Bytes}
    (htold : w.SaysAnswer keys e.other answer.nonce answer.ciphertext)
    (ha : Adopts (keys e) { env with monotonic := w.clock e } (peer keys e) (w.tables e) t answer
      secret shared) (hkeep : w.Holds keys e.other (kem.shared answer.ciphertext)) :
    Sound keys kem (w.put e t flight) := by
  have hs := sealing_put hne hsub ha.out
  have hattempt := attempt_put keys flight ha.attempt
  obtain ⟨hwait, hopen'⟩ := of_attemptSecret ha.waiting
  have hdead : w.live keys e = none := by
    by_contra hlive
    rcases hopen' with hn | hl
    · exact absurd hn (by rw [show Outcome.nonce _ _ = none from h.closed e hlive]; simp)
    · exact hlive hl
  have hother : w.live keys e.other ≠ none := fun hl => (h.silent _ hl).2.1 _ _ htold
  have hshared : shared = kem.shared answer.ciphertext := by
    have := hopen e _ _ (h.answer e _ _ _ hwait htold)
    rw [ha.kem] at this
    exact Option.some.inj this
  have hlive : (w.put e t flight).live keys e = some shared := (live_self _ _ _ _).trans ha.live
  have hboth : ∀ x, (w.put e t flight).live keys x ≠ none := fun x hx => hother (dead_put hlive hx).2
  refine ⟨only_put h.only honly, hs.sound_honest h, closed_put h fun _ => ha.nonce,
    fun x n s kemPub ha hsaid => h.hello x n s kemPub (hattempt _ _ _ ha) (hs.no_hello _ _ _ hsaid),
    fun x n s ct ha hsaid => h.answer x n s ct (hattempt _ _ _ ha) (hs.no_answer _ _ _ hsaid),
    fun x hx => absurd hx (hboth x), fun x n kemPub hx _ _ => absurd hx (hboth x),
    fun x n kemPub hx _ _ => absurd hx (hboth x), fun _ => ⟨e, shared, hlive, fun key' hsaid => ?_, ?_, fun key' exp hc => ?_⟩⟩
  · rcases hs.data _ _ hsaid with hsaid | ⟨-, hkey⟩
    · exact absurd hsaid ((h.silent e hdead).2.2 key')
    · exact (Option.some.inj hkey).symm
  · rw [holds_other, hshared]
    exact hkeep
  · rw [cand_self, ha.cand, show Outcome.cand _ _ = none from (h.silent e hdead).1] at hc
    cases hc

/-- **A candidate goes live**: it is the key of the end whose data it opens. -/
theorem Sound.promotes (hmem : p ∈ w.flight) (hsrc : p.srcId = peer keys e)
    (hp : Promotes { env with monotonic := w.clock e } (peer keys e) (w.tables e) t p key) :
    Sound keys kem (w.put e t flight) := by
  have hquiet : OnlyData (keys e) (peer keys e) none t.out := by
    unfold OnlyData
    rw [hp.out]
    simp
  have hs := sealing_put hne hsub hquiet
  have hattempt := attempt_put keys flight hp.attempt
  obtain ⟨exp, hcand, -⟩ := hp.cand
  have hcand : w.cand keys e = some (key, exp) := hcand
  obtain ⟨own, hown, -⟩ := hp.closed
  have hown : w.live keys e = some own := hown
  have htold : w.SaysData keys e.other key := by
    obtain ⟨srcId, dstId, body⟩ := p
    obtain rfl : srcId = (keys e.other).id := hsrc
    have hopens := hp.opens
    unfold Packet.decryptPayload at hopens
    split at hopens
    · next payload hbody =>
      split_ifs at hopens with hkey
      · obtain rfl : body = .data payload := hbody
        exact ⟨dstId, payload, hmem, hkey.1⟩
      · exact absurd rfl hopens
    · exact absurd rfl hopens
  have hother : w.live keys e.other ≠ none := fun hl => (h.silent _ hl).2.2 _ htold
  have hlive : (w.put e t flight).live keys e = some key := (live_self _ _ _ _).trans hp.live
  have hboth : ∀ x, (w.put e t flight).live keys x ≠ none := fun x hx => hother (dead_put hlive hx).2
  have hall := both_live hown hother
  have hdata : ∀ x k, (w.put e t flight).SaysData keys x k → w.SaysData keys x k := fun x k hsaid =>
    (hs.data x k hsaid).elim id fun hk => nomatch hk.2
  refine ⟨only_put h.only honly, hs.sound_honest h,
    closed_put h fun _ => hp.nonce.trans (h.closed e (hall e)),
    fun x n s kemPub ha hsaid => h.hello x n s kemPub (hattempt _ _ _ ha) (hs.no_hello _ _ _ hsaid),
    fun x n s ct ha hsaid => h.answer x n s ct (hattempt _ _ _ ha) (hs.no_answer _ _ _ hsaid),
    fun x hx => absurd hx (hboth x), fun x n kemPub hx _ _ => absurd hx (hboth x),
    fun x n kemPub hx _ _ => absurd hx (hboth x), fun _ => ?_⟩
  obtain ⟨i, key', hpair⟩ := h.paired hall
  rcases End.eq_or e i with rfl | rfl
  · exact absurd htold (hpair.spare key exp hcand).2.2
  · obtain rfl := hpair.data key htold
    refine ⟨e.other, key, by rw [live_other]; exact hpair.live,
      fun k hsaid => hpair.data k (hdata _ _ hsaid), ?_, fun k exp' hc => ?_⟩
    · rw [End.other_other]
      exact .inl hlive
    · rw [cand_other] at hc
      obtain ⟨h1, h2, h3⟩ := hpair.spare k exp' hc
      rw [End.other_other] at h3 ⊢
      exact ⟨h1, fun hl => h1 (Option.mem_unique hlive hl).symm,
        fun hsaid => h3 (hdata _ _ hsaid)⟩

end Turns

/-! ### The network and the clocks -/

theorem Sound.thin (h : Sound keys kem w) (hsub : ∀ p ∈ flight, p ∈ w.flight) :
    Sound keys kem { w with flight := flight } := by
  have hhello : ∀ x n kemPub, ({ w with flight := flight } : World K).SaysHello keys x n kemPub →
      w.SaysHello keys x n kemPub := fun _ _ _ ⟨dst, hello, hp, hrest⟩ => ⟨dst, hello, hsub _ hp, hrest⟩
  have hanswer : ∀ x n ct, ({ w with flight := flight } : World K).SaysAnswer keys x n ct →
      w.SaysAnswer keys x n ct := fun _ _ _ ⟨dst, answer, hp, hrest⟩ => ⟨dst, answer, hsub _ hp, hrest⟩
  have hdata : ∀ x key, ({ w with flight := flight } : World K).SaysData keys x key →
      w.SaysData keys x key := fun _ _ ⟨dst, payload, hp, hrest⟩ => ⟨dst, payload, hsub _ hp, hrest⟩
  exact ⟨h.only, fun p hp => h.honest p (hsub p hp), h.closed,
    fun x n s kemPub ha hsaid => h.hello x n s kemPub ha (hhello _ _ _ hsaid),
    fun x n s ct ha hsaid => h.answer x n s ct ha (hanswer _ _ _ hsaid),
    fun x hx => ⟨(h.silent x hx).1, fun n ct hsaid => (h.silent x hx).2.1 n ct (hanswer _ _ _ hsaid),
      fun key hsaid => (h.silent x hx).2.2 key (hdata _ _ hsaid)⟩,
    fun x n kemPub hx hlt hsaid => h.lower x n kemPub hx hlt (hhello _ _ _ hsaid),
    fun x n kemPub hx hx' hsaid => h.led x n kemPub hx hx' (hhello _ _ _ hsaid),
    fun hall => (h.paired hall).imp fun i => Exists.imp fun key hp => ⟨hp.live,
      fun k hsaid => hp.data k (hdata _ _ hsaid), hp.holds, fun k exp hc =>
        ⟨(hp.spare k exp hc).1, (hp.spare k exp hc).2.1,
          fun hsaid => (hp.spare k exp hc).2.2 (hdata _ _ hsaid)⟩⟩⟩

theorem Sound.tick (h : Sound keys kem w) (e : End) (d : ℚ)
    (hkeep : ∀ exp ∈ wanted keys w e, w.clock e + d < exp) :
    Sound keys kem { w with clock := Function.update w.clock e (w.clock e + d) } := by
  refine ⟨h.only, h.honest, h.closed, h.hello, h.answer, h.silent, h.lower, h.led, fun hall => ?_⟩
  obtain ⟨i, key, hp⟩ := h.paired hall
  refine ⟨i, key, hp.live, hp.data, ?_, hp.spare⟩
  by_cases hl : w.live keys i.other = some key
  · exact .inl hl
  · obtain ⟨exp, hc, hexp⟩ := hp.holds.resolve_left hl
    refine .inr ⟨exp, hc, ?_⟩
    show Function.update w.clock e (w.clock e + d) i.other < exp
    by_cases hie : i.other = e
    · rw [hie, Function.update_self]
      refine hkeep exp (wanted_eq_some.mpr ⟨key, hie ▸ hc, ?_, hie ▸ hl⟩)
      rw [← hie, End.other_other]
      exact hp.live
    · rw [Function.update_of_ne hie]
      exact hexp

theorem dest_of (hne : (keys .a).id ≠ (keys .b).id) {x : End}
    (h : p.dstId = peer keys x) : dest keys p = x.other := by
  unfold dest
  rw [h]
  cases x with
  | a => exact if_neg (Ne.symm hne)
  | b => exact if_pos rfl

theorem Sound.deliver (hne : (keys .a).id ≠ (keys .b).id) (hopen : ∀ e, Opens kem (keys e))
    (h : Sound keys kem w) {i : ℕ} (hp : w.flight[i]? = some p)
    (hideal : Ideal keys kem w (env, .deliver i)) (hkeep : Keeps keys kem w (env, .deliver i)) :
    Sound keys kem (w.settle keys (dest keys p) env (.packet p) (w.flight.eraseIdx i)) := by
  have hmem : p ∈ w.flight := List.mem_of_getElem? hp
  obtain ⟨x, hsrc, hdst⟩ := h.honest p hmem
  rw [dest_of hne hdst]
  have hkeep : KeepsAt keys kem w (dest keys p) env p.body := hkeep p hp
  rw [dest_of hne hdst] at hkeep
  have hsrc : p.srcId = peer keys x.other := by
    rw [hsrc, peer, End.other_other]
  have hsub : ∀ p ∈ w.flight.eraseIdx i, p ∈ w.flight := fun p hp => List.mem_of_mem_eraseIdx hp
  obtain ⟨honly, hhandled⟩ := handle_outcome (keys x.other)
    { env with monotonic := w.clock x.other } (h.only x.other) p hsrc
  show Sound keys kem (w.put x.other _ _)
  cases hhandled with
  | idle _ hi => exact h.idle hne hsub honly hi
  | responds dstId hello ciphertext shared hr =>
    refine h.responds hne hsub honly hideal ⟨dstId, hello, hmem, rfl, rfl⟩ hr ?_
    exact hkeep ⟨hr.checks, hr.glare, hr.chain, by rw [hr.kem]; rfl⟩
  | adopts dstId answer secret shared ha =>
    refine h.adopts hne hsub honly hopen ⟨dstId, answer, hmem, rfl, rfl⟩ ha ?_
    exact hkeep ⟨by rw [ha.waiting]; rfl, ha.checks⟩
  | spoils dstId answer secret hs =>
    have htold : w.SaysAnswer keys x.other.other answer.nonce answer.ciphertext :=
      ⟨dstId, answer, hmem, rfl, rfl⟩
    have hopens := hopen x.other _ _ (h.answer _ _ _ _ (of_attemptSecret hs.waiting).1 htold)
    rw [hs.kem] at hopens
    cases hopens
  | promotes _ key hpr => exact h.promotes hne hsub honly hmem hsrc hpr

/-- **One step.** -/
theorem Sound.step (hne : (keys .a).id ≠ (keys .b).id) (hopen : ∀ e, Opens kem (keys e))
    (h : Sound keys kem w) (hideal : Ideal keys kem w a)
    (hkeep : Keeps keys kem w a) : Sound keys kem (w.step keys a) := by
  obtain ⟨env, a⟩ := a
  have hother : ∀ e, peer keys e ≠ (keys e).id := fun e heq => End.other_ne e (id_inj hne heq)
  cases a with
  | sendData e payload =>
    obtain ⟨honly, hi | hi⟩ := sendData_outcome (keys e)
      { env with monotonic := w.clock e } (h.only e) (hother e) payload
    · exact h.idle hne (fun _ hp => hp) honly hi
    · exact h.initiates hne (fun _ hp => hp) honly hideal hi
  | pruneAttempts e =>
    obtain ⟨honly, hi⟩ := prune_outcome (keys e)
      { env with monotonic := w.clock e } (h.only e)
    exact h.idle hne (fun _ hp => hp) honly hi
  | retry e =>
    obtain ⟨honly, hi | hi⟩ := retry_outcome (keys e)
      { env with monotonic := w.clock e } (h.only e)
    · exact h.idle hne (fun _ hp => hp) honly hi
    · exact h.initiates hne (fun _ hp => hp) honly hideal hi
  | deliver i =>
    unfold World.step
    dsimp only
    split
    · exact h
    · next p hp => exact h.deliver hne hopen hp hideal hkeep
  | duplicate i =>
    refine h.thin fun p hp => ?_
    rcases List.mem_append.mp hp with hp | hp
    · exact hp
    · exact List.mem_of_getElem? (Option.mem_toList.mp hp)
  | lose i => exact h.thin fun p hp => List.mem_of_mem_eraseIdx hp
  | tick e d => exact h.tick e d hkeep

end Steps

/-! ### Every run -/

theorem sound_start (old : Bytes) (held : End → Bool) (clock : End → ℚ) :
    Sound keys kem (start keys old held clock) := by
  have hlive : ∀ e key, (start keys old held clock).live keys e = some key → key = old := by
    intro e key hl
    have hl : (if held e then (Dict.empty : Dict NodeID Bytes).set (peer keys e) old
      else Dict.empty).get? (peer keys e) = some key := hl
    split_ifs at hl
    · rw [Dict.get?_set_self] at hl
      exact (Option.some.inj hl).symm
    · cases hl
  have hattempt : ∀ e n secret, ¬ (start keys old held clock).Attempt keys e n secret := by
    rintro e n secret (⟨hn, -⟩ | ⟨exp, hr⟩)
    · cases hn
    · cases hr
  refine ⟨fun e => ⟨fun n hn => ?_, (fun _ hn => nomatch hn), (fun _ hn => nomatch hn)⟩,
    (fun _ hp => nomatch hp), fun _ _ => rfl, fun e n secret _ ha => absurd ha (hattempt e n secret),
    fun e n secret _ ha => absurd ha (hattempt e n secret), fun e _ => ⟨rfl, ?_, ?_⟩, ?_, ?_,
    fun hall => ?_⟩
  · have hn : n ∈ (if held e then (Dict.empty : Dict NodeID Bytes).set (peer keys e) old
      else Dict.empty).keys := hn
    split_ifs at hn
    · rcases Dict.mem_keys_set.mp hn with hn | hn
      · exact hn
      · cases hn
    · cases hn
  · rintro n ct ⟨_, _, hp, -⟩
    cases hp
  · rintro key ⟨_, _, hp, -⟩
    cases hp
  · rintro e n kemPub - - ⟨_, _, hp, -⟩
    cases hp
  · rintro e n kemPub - - ⟨_, _, hp, -⟩
    cases hp
  · obtain ⟨ka, ha⟩ := Option.ne_none_iff_exists'.mp (hall .a)
    obtain ⟨kb, hb⟩ := Option.ne_none_iff_exists'.mp (hall .b)
    have hab : kb = ka := (hlive _ _ hb).trans (hlive _ _ ha).symm
    refine ⟨.a, ka, ha, ?_, .inl (hab ▸ hb), (fun _ _ hc => nomatch hc)⟩
    rintro key ⟨_, _, hp, -⟩
    cases hp

/-- **Sessions heal**: in every run in which no key is given up, the keys of two live ends are equal, or
one end has the other's parked, and unexpired. -/
theorem heals (hne : (keys .a).id ≠ (keys .b).id) (hopen : ∀ e, Opens kem (keys e)) (old : Bytes)
    (held : End → Bool) (clock : End → ℚ) {as : List (Env K × Act)}
    (hrun : Guarded (World.step keys) (fun w a => Ideal keys kem w a ∧ Keeps keys kem w a)
      (start keys old held clock) as) :
    (run (World.step keys) (start keys old held clock) as).Healed keys := by
  have h : Sound keys kem (run (World.step keys) (start keys old held clock) as) :=
    hrun.run_induct (fun _ _ h hg => h.step hne hopen hg.1 hg.2) (sound_start keys kem old held clock)
  exact h.healed

end World

/-! ### A node that lost its session -/

/-- The ML-KEM whose ciphertext is a secret of one byte, then the public key, and whose keys are alike. -/
def plainKem : Kem where
  publicOf secret := secret
  target ciphertext := ciphertext.tail
  shared ciphertext := ciphertext.take 1

def plainKeys (e : End) : Keys plain where
  dsaPublicKey := if e = .a then [1] else [2]
  sign message := message
  kemDecapsulate ciphertext _ := some (ciphertext.take 1)

def plainCerts : CertStore plain :=
  [.add (plainCert 1 1), .add (plainCert 2 2), .addRoot (plainKeys .a).id, .addRoot (plainKeys .b).id].foldl
    (fun s op => s.step (0, op)) (.new plain (plainKeys .a).id 9 9 9)

/-- The world's `n`-th call: everything random in it is `n`. -/
def plainEnv (n : UInt8) : Env plain where
  monotonic := 0
  urandom := [n]
  kemPair := ([n], [n])
  kemEncapsulate pub := some (n :: pub, [n])
  certs := plainCerts
  stamp := 0

theorem plain_opens (e : End) : Opens plainKem (plainKeys e) := fun _ _ _ => rfl

/-- `A` has the session `[0]`, and `B` has lost it. -/
def lostSession : World plain := start plainKeys [0] (fun e => decide (e = .a)) fun _ => 0

def plainActs (as : List (UInt8 × Act)) : List (Env plain × Act) := as.map fun a => (plainEnv a.1, a.2)

theorem ideal_plain {w : World plain} {n : UInt8} {a : Act}
    (h : NewNonce plainKeys w [n] ∧ NewKey plainKeys w [n]) :
    Ideal plainKeys plainKem w (plainEnv n, a) := by
  refine ⟨h.1, rfl, ?_⟩
  rintro kemPub ciphertext shared hkem
  cases hkem
  exact ⟨rfl, rfl, h.2⟩

theorem guarded_plain {G : World plain → Env plain × Act → Prop} : ∀ {as : List (UInt8 × Act)}
    {w : World plain}, Guarded (fun w a => w.step plainKeys (plainEnv a.1, a.2)) (fun w a =>
      (NewNonce plainKeys w [a.1] ∧ NewKey plainKeys w [a.1]) ∧ G w (plainEnv a.1, a.2)) w as →
      Guarded (World.step plainKeys) (fun w a => Ideal plainKeys plainKem w a ∧ G w a) w (plainActs as)
  | [], _, _ => trivial
  | _ :: _, _, ⟨h, hrest⟩ => ⟨⟨ideal_plain h.1, h.2⟩, guarded_plain hrest⟩

/-- `B` tries once, and takes the answer. -/
def rekey : List (UInt8 × Act) := [(1, .sendData .b [7]), (2, .deliver 0), (3, .deliver 0)]

theorem heals_rekey : (run (World.step plainKeys) lostSession (plainActs rekey)).Healed plainKeys ∧
    (run (World.step plainKeys) lostSession (plainActs rekey)).live plainKeys .a = some [0] ∧
    (run (World.step plainKeys) lostSession (plainActs rekey)).live plainKeys .b = some [2] :=
  ⟨heals plainKeys plainKem (by decide) plain_opens [0] _ _ (guarded_plain (by decide +kernel)),
    by decide +kernel, by decide +kernel⟩

/-- `B` tries, and tries again after five seconds. Both handshakes are answered, the second over the
candidate of the first, and the first answer is the first to arrive: `B` takes it, and what it sends opens
under neither key of `A`. Nothing is lost, doubled or overtaken. -/
def slowPath : List (UInt8 × Act) :=
  [(1, .sendData .b [7]), (2, .tick .b 5), (3, .retry .b), (4, .deliver 0), (5, .deliver 0),
    (6, .deliver 0), (7, .deliver 0), (8, .deliver 0)]

/-- The session does not heal, and nothing is in flight. -/
theorem slowPath_broken :
    Guarded (World.step plainKeys) (Ideal plainKeys plainKem) lostSession (plainActs slowPath) ∧
      (run (World.step plainKeys) lostSession (plainActs slowPath)).flight.length = 0 ∧
      ¬ (run (World.step plainKeys) lostSession (plainActs slowPath)).Healed plainKeys := by
  have hrun : Guarded (World.step plainKeys) (fun w a => Ideal plainKeys plainKem w a ∧ True)
      lostSession (plainActs slowPath) := guarded_plain (by decide +kernel)
  refine ⟨hrun.mono fun _ _ h => h.1, by decide +kernel, fun h => ?_⟩
  have h' := h .a [0] [4] (by decide +kernel) (by decide +kernel)
  revert h'
  decide +kernel

end NMesh.E2e.Healing
