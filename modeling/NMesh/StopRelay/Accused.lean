import NMesh.StopRelay.Network
import Mathlib.Data.List.FinRange
import Mathlib.Data.Rat.Floor
import Mathlib.Tactic.Linarith

/-! # Who is reported for relaying

A relay can decline a request without a word: because its sender has sent too many, because the destination
has too many rules already, or because it does not serve the sender; and it forgets its oldest rule when it
holds too many. The node that asked knows nothing of this, and reports the relay (`declined_reported`). As
long as no request is declined and no rule is forgotten (`Honoured`), nobody is reported
(`never_reported`). -/

namespace NMesh.StopRelay.Accused

open Base.BigEndian Base.Ordered Base.Runs NMesh.Cert.Identity
open NMesh.StopRelay.Record NMesh.StopRelay.Rules NMesh.StopRelay.Network
open NMesh.Directory.PseudoDir (Primitives turning)

variable {ι R : Type} [Field R] [LinearOrder R] [FloorSemiring R]
variable (P : Primitives) (me : ι → Local) (a b : R)

/-- A request and a packet are under way for at most `a` and `b`; what is sent is really sent; a request
comes to a node that serves its sender, within the rate, and there is room for its rule. -/
def Honoured (n : Net ι R) : Network.Action ι R → Prop
  | .wait d => ∀ m ∈ n.flight, (m.IsRequest → n.now + d ≤ m.at_ + a) ∧ (¬ m.IsRequest → n.now + d ≤ m.at_ + b)
  | .originate _ _ _ => True
  | .arrive _ _ _ sends _ => sends = true
  | .lose _ => True
  | .serve m tarpit => tarpit = false ∧
      ((n.stops m.receiver).stopAllowed (me m.sender).id.raw n.now).1 = true ∧
      ∀ request ∈ m.record.bind fun record => parse P record ⌊n.now⌋₊,
        (n.stops m.receiver).Roomy n.now request

/-! ### Records -/

def Valid (record : Bytes) (src dst : NodeID) (e : ℕ) (now : R) : Prop :=
  ∃ i issued, dst = (me i).id ∧ src ≠ dst ∧ issued ≤ ⌊now⌋₊ ∧ issued < e ∧ e - issued ≤ maxTtl ∧
    e < 256 ^ 8 ∧ record = pack issued e src (me i).dsaPublicKey ((me i).sign (signedInput issued e src dst))

variable {P me a b} {record : Bytes} {src dst : NodeID} {e : ℕ} {now : R}

theorem Valid.mono [IsStrictOrderedRing R] {now' : R} (h : Valid me record src dst e now) (hle : now ≤ now') :
    Valid me record src dst e now' := by
  obtain ⟨i, issued, hdst, hsrc, hissued, hrest⟩ := h
  exact ⟨i, issued, hdst, hsrc, hissued.trans (Nat.floor_le_floor hle), hrest⟩

theorem Valid.small (hlaw : Lawful P me) (h : Valid me record src dst e now) :
    record ≠ [] ∧ record.length ≤ stopRelayMax := by
  obtain ⟨i, issued, -, -, -, -, -, -, rfl⟩ := h
  have hlen := @length_pack issued e src (me i).dsaPublicKey ((me i).sign (signedInput issued e src dst))
  refine ⟨fun hnil => ?_, hlen ▸ hlaw.small i _⟩
  rw [hnil, List.length_nil] at hlen
  unfold headerSize at hlen
  omega

theorem Valid.parse (hlaw : Lawful P me) (h : Valid me record src dst e now) (hlive : ⌊now⌋₊ < e) :
    ∃ issued, parse P record ⌊now⌋₊ = some ⟨dst, src, issued, e⟩ := by
  obtain ⟨i, issued, rfl, hsrc, hissued, hbefore, hlife, hfits, rfl⟩ := h
  have hname := hlaw.names i
  refine ⟨issued, ?_⟩
  rw [parse_pack hfits ⟨hbefore, hlife⟩ (hlaw.pubLen i) (hlaw.sigLen i _) ⟨by omega, hlive⟩, hname]
  · rw [hname]
    exact hlaw.verifies i _
  · rw [hname]
    exact hsrc.symm

theorem Valid.of_parse (hlaw : Lawful P me) (h : Valid me record src dst e now) {request : Request}
    (hparse : Record.parse P record ⌊now⌋₊ = some request) :
    request.requester = dst ∧ request.blocked = src ∧ request.expiresAt = e ∧ ⌊now⌋₊ < e := by
  have hlive : ⌊now⌋₊ < e := by
    obtain ⟨i, issued, -, -, -, -, -, hfits, rfl⟩ := h
    have hexpires := expiresAt_of_parse hparse
    rw [fields_pack.2.2.1, ofBE_toBE hfits] at hexpires
    exact hexpires.1 ▸ hexpires.2
  obtain ⟨issued, hread⟩ := h.parse hlaw hlive
  obtain rfl := Option.mem_unique hread hparse
  exact ⟨rfl, rfl, rfl, hlive⟩

/-! ### What a node may expect of one that it has asked -/

section Met

variable (me a)

/-- A request reached its relay, or will; or it has run out. -/
def Covered (n : Net ι R) (here there : ι) (src dst : NodeID) (t e : R) : Prop :=
  (∃ record k, ⟨here, there, t, .request record⟩ ∈ n.flight ∧ Valid me record src dst k n.now ∧ (k : R) = e) ∨
    (n.stops there).Holds (src, dst) e ∨ e ≤ n.now

/-- `here` asked `there` at time `t` to stop relaying, until `e`: what is under way from there was let through
before the request was served. -/
structure Met (n : Net ι R) (here there : ι) (src dst : NodeID) (t e : R) : Prop where
  other : src ≠ (me there).id ∧ dst ≠ (me there).id
  covered : Covered me n here there src dst t e
  older : ∀ s, ⟨there, here, s, .packet src dst⟩ ∈ n.flight → s ≤ t + a ∨ e ≤ s

end Met

section Honest

variable (me a b)

/-- The state of a network in which nobody was reported. -/
structure Honest (n : Net ι R) : Prop where
  start : 0 ≤ n.now
  past : ∀ m ∈ n.flight, m.at_ ≤ n.now
  requests : ∀ m ∈ n.flight, m.IsRequest → n.now ≤ m.at_ + a
  packets : ∀ m ∈ n.flight, ¬ m.IsRequest → n.now ≤ m.at_ + b
  apart : ∀ m ∈ n.flight, m.sender ≠ m.receiver
  carried : ∀ m ∈ n.flight, ∀ src dst, m.body = .packet src dst →
    src = (me m.sender).id ∨ dst ≠ (me m.sender).id
  valid : ∀ m ∈ n.flight, ∀ record, m.body = .request record →
    ∃ src dst e, Valid me record src dst e n.now
  rules : ∀ i key rule, (n.stops i).rules.get? key = some rule → key.2 ≠ (me i).id ∧
    ∃ e, Valid me rule.record key.1 key.2 e n.now ∧ (e : R) = rule.until_
  asked : ∀ i j src asked, (n.stops i).asked.get? (src, (me j).id) = some asked →
    ∃ e, asked.until_ ≤ e ∧ Met me a n i j src (me i).id asked.at_ e
  told : ∀ i j key rule t, (n.stops i).rules.get? key = some rule → rule.told.get? (me j).id = some t →
    Met me a n i j key.1 key.2 t rule.until_
  silent : n.reports = []

theorem honest_quiet (hnow : 0 ≤ now) : Honest me a b (quiet now : Net ι R) where
  start := hnow
  past := fun _ h => nomatch h
  requests := fun _ h => nomatch h
  packets := fun _ h => nomatch h
  apart := fun _ h => nomatch h
  carried := fun _ h => nomatch h
  valid := fun _ h => nomatch h
  rules := fun _ _ _ h => nomatch h
  asked := fun _ _ _ _ h => nomatch h
  told := fun _ _ _ _ _ h => nomatch h
  silent := rfl

variable {me a b} {n n' : Net ι R} {here there : ι} {t u : R}

theorem Met.wait [IsStrictOrderedRing R] (h : Met me a n here there src dst t u) {d : R} (hd : 0 ≤ d) :
    Met me a { n with now := n.now + d } here there src dst t u where
  other := h.other
  covered := by
    have hle : n.now ≤ n.now + d := le_add_of_nonneg_right hd
    rcases h.covered with ⟨record, k, hmem, hvalid, hk⟩ | hholds | hover
    · exact .inl ⟨record, k, hmem, hvalid.mono hle, hk⟩
    · exact .inr (.inl hholds)
    · exact .inr (.inr (hover.trans hle))
  older := h.older

/-- No request is served: what was asked for stays so, and what is let through now was asked for too late
or is not asked for any more. -/
theorem Met.change (h : Met me a n here there src dst t u) (hnow : n'.now = n.now)
    (hrequests : ∀ m ∈ n.flight, m.IsRequest → m ∈ n'.flight)
    (hholds : ∀ key e, n.now < e → (n.stops there).Holds key e → (n'.stops there).Holds key e)
    (hpackets : ∀ s, ⟨there, here, s, .packet src dst⟩ ∈ n'.flight →
      ⟨there, here, s, .packet src dst⟩ ∈ n.flight ∨ s = n.now ∧ (n.now ≤ t + a ∨ u ≤ n.now)) :
    Met me a n' here there src dst t u where
  other := h.other
  covered := by
    rcases h.covered with ⟨record, k, hmem, hvalid, hk⟩ | hheld | hover
    · exact .inl ⟨record, k, hrequests _ hmem ⟨record, rfl⟩, hnow ▸ hvalid, hk⟩
    · rcases lt_or_ge n.now u with hlive | hover
      · exact .inr (.inl (hholds _ u hlive hheld))
      · exact .inr (.inr (hnow ▸ hover))
    · exact .inr (.inr (hnow ▸ hover))
  older s hmem := by
    rcases hpackets s hmem with hmem | ⟨rfl, hlate⟩
    · exact h.older s hmem
    · exact hlate

theorem Honest.wait [IsStrictOrderedRing R] (h : Honest me a b n) {d : R} (hd : 0 ≤ d) (hin : Honoured P me a b n (.wait d)) :
    Honest me a b { n with now := n.now + d } where
  start := h.start.trans (le_add_of_nonneg_right hd)
  past m hm := (h.past m hm).trans (le_add_of_nonneg_right hd)
  requests m hm := (hin m hm).1
  packets m hm := (hin m hm).2
  apart := h.apart
  carried := h.carried
  valid m hm record hbody := by
    obtain ⟨src, dst, e, hvalid⟩ := h.valid m hm record hbody
    exact ⟨src, dst, e, hvalid.mono (le_add_of_nonneg_right hd)⟩
  rules i key rule hrule := by
    obtain ⟨hother, e, hvalid, he⟩ := h.rules i key rule hrule
    exact ⟨hother, e, hvalid.mono (le_add_of_nonneg_right hd), he⟩
  asked i j src asked hasked := by
    obtain ⟨e, hle, hmet⟩ := h.asked i j src asked hasked
    exact ⟨e, hle, hmet.wait hd⟩
  told i j key rule t hrule htold := (h.told i j key rule t hrule htold).wait hd
  silent := h.silent

end Honest

/-! ### A packet comes in -/

section After

variable [DecidableEq ι]

/-- A message is taken out, its receiver writes its tables, and more is sent. -/
def after (n : Net ι R) (m : Message ι R) (stops : Stops R) (extra : List (Message ι R)) : Net ι R :=
  { n with stops := Function.update n.stops m.receiver stops, flight := n.flight.erase m ++ extra }

variable {n : Net ι R} {m : Message ι R} {stops : Stops R} {extra : List (Message ι R)}

omit [Field R] [FloorSemiring R] in
theorem stops_after_self : (after n m stops extra).stops m.receiver = stops := Function.update_self ..

omit [Field R] [FloorSemiring R] in
theorem stops_after_of_ne {i : ι} (hi : i ≠ m.receiver) : (after n m stops extra).stops i = n.stops i :=
  Function.update_of_ne hi ..

variable (me) in
/-- What the receiver of a packet sends on. -/
structure Sends (n : Net ι R) (m x : Message ι R) : Prop where
  sender : x.sender = m.receiver
  receiver : x.receiver ≠ m.receiver
  at_ : x.at_ = n.now
  valid : ∀ record, x.body = .request record → ∃ src dst e, Valid me record src dst e n.now
  /-- A packet is passed on only for somebody else, and if no rule is against it. -/
  free : ∀ src dst, x.body = .packet src dst → dst ≠ (me m.receiver).id ∧
    ∀ e, (n.stops m.receiver).Holds (src, dst) e → e ≤ n.now

theorem Honest.met_after (h : Honest me a b n) (hpacket : ¬ m.IsRequest)
    (hholds : ∀ key e, n.now < e → (n.stops m.receiver).Holds key e → stops.Holds key e)
    (hextra : ∀ x ∈ extra, Sends me n m x) {here there : ι} {t u : R}
    (hmet : Met me a n here there src dst t u) :
    Met me a (after n m stops extra) here there src dst t u := by
  refine hmet.change rfl (fun r hr hrequest => ?_) (fun key e hlive hheld => ?_) (fun s hmem => ?_)
  · refine List.mem_append_left _ ((List.mem_erase_of_ne ?_).mpr hr)
    rintro rfl
    exact hpacket hrequest
  · show (Function.update n.stops m.receiver stops there).Holds key e
    by_cases hthere : there = m.receiver
    · subst hthere
      rw [Function.update_self]
      exact hholds key e hlive hheld
    · rw [Function.update_of_ne hthere]
      exact hheld
  · rcases List.mem_append.mp hmem with hmem | hmem
    · exact .inl (List.mem_of_mem_erase hmem)
    · have hsends := hextra _ hmem
      refine .inr ⟨hsends.at_, ?_⟩
      obtain rfl : there = m.receiver := hsends.sender
      rcases hmet.covered with ⟨record, k, hreq, -, -⟩ | hheld | hover
      · exact .inl (h.requests _ hreq ⟨record, rfl⟩)
      · exact .inr ((hsends.free src dst rfl).2 u hheld)
      · exact .inr hover

theorem Honest.after [IsStrictOrderedRing R] (h : Honest me a b n) (ha : 0 ≤ a) (hb : 0 ≤ b) (hpacket : ¬ m.IsRequest)
    (hholds : ∀ key e, n.now < e → (n.stops m.receiver).Holds key e → stops.Holds key e)
    (hextra : ∀ x ∈ extra, Sends me n m x)
    (hrules : ∀ key rule, stops.rules.get? key = some rule → key.2 ≠ (me m.receiver).id ∧
      ∃ e, Valid me rule.record key.1 key.2 e n.now ∧ (e : R) = rule.until_)
    (hasked : ∀ j src asked, stops.asked.get? (src, (me j).id) = some asked →
      (n.stops m.receiver).asked.get? (src, (me j).id) = some asked ∨ ∃ e, asked.until_ ≤ e ∧
        Met me a (after n m stops extra) m.receiver j src (me m.receiver).id asked.at_ e)
    (htold : ∀ j key rule t, stops.rules.get? key = some rule → rule.told.get? (me j).id = some t →
      (∃ old, (n.stops m.receiver).rules.get? key = some old ∧ old.told.get? (me j).id = some t ∧
        old.until_ = rule.until_) ∨
        Met me a (after n m stops extra) m.receiver j key.1 key.2 t rule.until_) :
    Honest me a b (after n m stops extra) where
  start := h.start
  past x hx := by
    rcases List.mem_append.mp hx with hx | hx
    · exact h.past x (List.mem_of_mem_erase hx)
    · exact (hextra x hx).at_.le
  requests x hx hrequest := by
    rcases List.mem_append.mp hx with hx | hx
    · exact h.requests x (List.mem_of_mem_erase hx) hrequest
    · rw [(hextra x hx).at_]
      exact le_add_of_nonneg_right ha
  packets x hx hrequest := by
    rcases List.mem_append.mp hx with hx | hx
    · exact h.packets x (List.mem_of_mem_erase hx) hrequest
    · rw [(hextra x hx).at_]
      exact le_add_of_nonneg_right hb
  apart x hx := by
    rcases List.mem_append.mp hx with hx | hx
    · exact h.apart x (List.mem_of_mem_erase hx)
    · rw [(hextra x hx).sender]
      exact (hextra x hx).receiver.symm
  carried x hx src dst hbody := by
    rcases List.mem_append.mp hx with hx | hx
    · exact h.carried x (List.mem_of_mem_erase hx) src dst hbody
    · rw [(hextra x hx).sender]
      exact .inr ((hextra x hx).free src dst hbody).1
  valid x hx record hbody := by
    rcases List.mem_append.mp hx with hx | hx
    · exact h.valid x (List.mem_of_mem_erase hx) record hbody
    · exact (hextra x hx).valid record hbody
  rules i key rule hrule := by
    by_cases hi : i = m.receiver
    · subst hi
      exact hrules key rule (by rwa [stops_after_self] at hrule)
    · exact h.rules i key rule (by rwa [stops_after_of_ne hi] at hrule)
  asked i j src asked hget := by
    have hold : ∀ {asked}, (n.stops i).asked.get? (src, (me j).id) = some asked → ∃ e,
        asked.until_ ≤ e ∧ Met me a (Accused.after n m stops extra) i j src (me i).id asked.at_ e := by
      intro asked hget
      obtain ⟨e, hle, hmet⟩ := h.asked i j src asked hget
      exact ⟨e, hle, h.met_after hpacket hholds hextra hmet⟩
    by_cases hi : i = m.receiver
    · subst hi
      rw [stops_after_self] at hget
      rcases hasked j src asked hget with hget | hnew
      · exact hold hget
      · exact hnew
    · exact hold (by rwa [stops_after_of_ne hi] at hget)
  told i j key rule t hrule hget := by
    by_cases hi : i = m.receiver
    · subst hi
      rw [stops_after_self] at hrule
      rcases htold j key rule t hrule hget with ⟨old, hold, htime, hsame⟩ | hnew
      · rw [← hsame]
        exact h.met_after hpacket hholds hextra (h.told _ j key old t hold htime)
      · exact hnew
    · exact h.met_after hpacket hholds hextra
        (h.told i j key rule t (by rwa [stops_after_of_ne hi] at hrule) hget)
  silent := h.silent

variable (me) in
def passed (n : Net ι R) (here : ι) (refused : Bool) (src dst : NodeID) (next : Option ι) :
    List (Message ι R) :=
  if refused = true ∨ dst = (me here).id then []
  else next.toList.map fun there => ⟨here, there, n.now, .packet src dst⟩

theorem step_arrive {announces isSuspect refused : Bool} {effects : List Effect} {next : Option ι}
    (hbody : m.body = .packet src dst)
    (hr : (n.stops m.receiver).refuseRouted P (me m.receiver) (clock n.now) (me m.sender).id announces
      isSuspect src dst = (refused, stops, effects))
    (hsilent : reported effects = []) :
    step P me n (.arrive m announces isSuspect true next) =
      after n m stops (answers m.receiver m.sender n.now effects ++
        passed me n m.receiver refused src dst next) := by
  unfold step
  dsimp only
  rw [hbody]
  dsimp only
  rw [hr]
  dsimp only
  rw [hsilent, List.map_nil, List.append_nil]
  rfl

omit [DecidableEq ι] in
theorem sends_passed {refused : Bool} {next : Option ι} {x : Message ι R}
    (hnext : next ≠ some m.receiver)
    (hfree : refused = false → dst ≠ (me m.receiver).id → ∀ e, (n.stops m.receiver).Holds (src, dst) e →
      e ≤ n.now) (hx : x ∈ passed me n m.receiver refused src dst next) : Sends me n m x := by
  unfold passed at hx
  split_ifs at hx with hstop
  · cases hx
  · rw [not_or, Bool.not_eq_true] at hstop
    obtain ⟨there, hthere, rfl⟩ := List.mem_map.mp hx
    have hsome : next = some there := Option.mem_toList.mp hthere
    refine ⟨rfl, ?_, rfl, fun record hbody => ?_, fun src' dst' hbody => ?_⟩
    · rintro rfl
      exact hnext hsome
    · cases hbody
    · obtain ⟨rfl, rfl⟩ := Body.packet.inj hbody
      exact ⟨hstop.2, hfree hstop.1 hstop.2⟩

variable [IsStrictOrderedRing R]

theorem Honest.quietly (h : Honest me a b n) (ha : 0 ≤ a) (hb : 0 ≤ b) (hpacket : ¬ m.IsRequest)
    {refused : Bool} {next : Option ι} (hnext : next ≠ some m.receiver)
    (hrules : ∀ key rule, stops.rules.get? key = some rule →
      (n.stops m.receiver).rules.get? key = some rule)
    (hasked : stops.asked = (n.stops m.receiver).asked)
    (hholds : ∀ key e, n.now < e → (n.stops m.receiver).Holds key e → stops.Holds key e)
    (hfree : refused = false → dst ≠ (me m.receiver).id → ∀ e, (n.stops m.receiver).Holds (src, dst) e →
      e ≤ n.now) :
    Honest me a b (Accused.after n m stops ([] ++ passed me n m.receiver refused src dst next)) := by
  refine h.after ha hb hpacket hholds (fun x hx => sends_passed hnext hfree hx) (fun key rule hrule => ?_)
    (fun j src asked hget => ?_) (fun j key rule t hrule htold => ?_)
  · exact h.rules m.receiver key rule (hrules key rule hrule)
  · exact .inl (hasked ▸ hget)
  · exact .inl ⟨rule, hrules key rule hrule, htold, rfl⟩

theorem Honest.met_new (h : Honest me a b n) (ha : 0 ≤ a) {there : ι} {record : Bytes} {k : ℕ}
    (hother : src ≠ (me there).id ∧ dst ≠ (me there).id) (hvalid : Valid me record src dst k n.now)
    {rest : List (Message ι R)} (hrest : ∀ x ∈ rest, x.sender = m.receiver)
    (hne : there ≠ m.receiver) (hrecord : ⟨m.receiver, there, n.now, .request record⟩ ∈ rest) :
    Met me a (Accused.after n m stops rest) m.receiver there src dst n.now k where
  other := hother
  covered := .inl ⟨record, k, List.mem_append_right _ hrecord, hvalid, rfl⟩
  older s hmem := by
    rcases List.mem_append.mp hmem with hmem | hmem
    · exact .inl ((h.past _ (List.mem_of_mem_erase hmem)).trans (le_add_of_nonneg_right ha))
    · exact absurd (hrest _ hmem) hne

omit [DecidableEq ι] [IsStrictOrderedRing R] in
theorem valid_of_build (hlaw : Lawful P me) {i : ι}
    (hbuild : build P src (me i).dsaPublicKey (me i).sign stopRelayTtl ⌊now⌋₊ = some record) :
    Valid me record src (me i).id (⌊now⌋₊ + 900) now := by
  obtain ⟨hself, hfits, rfl⟩ := build_eq_some hbuild
  rw [hlaw.names i] at hself ⊢
  exact ⟨i, ⌊now⌋₊, rfl, hself.symm, le_rfl, by omega, by unfold maxTtl; omega, hfits, rfl⟩

theorem Honest.asks (h : Honest me a b n) (hlaw : Lawful P me) (ha : 0 ≤ a) (hb : 0 ≤ b) (hm : m ∈ n.flight)
    (hpacket : ¬ m.IsRequest) (hsrc : src ≠ (me m.sender).id)
    (hbuild : build P src (me m.receiver).dsaPublicKey (me m.receiver).sign stopRelayTtl ⌊n.now⌋₊ =
      some record) :
    Honest me a b (Accused.after n m
      ((n.stops m.receiver).askAnew P (me m.receiver) (clock n.now) (me m.sender).id src).1
      [⟨m.receiver, m.sender, n.now, .request record⟩]) := by
  have hvalid := valid_of_build hlaw hbuild
  have hrules := Stops.rules_askAnew P (me m.receiver) (clock n.now) (me m.sender).id src
    (n.stops m.receiver)
  refine h.after ha hb hpacket (fun key e _ hheld => ?_) (fun x hx => ?_) (fun key rule hrule => ?_)
    (fun j src' asked hget => ?_) (fun j key rule t hrule htold => ?_)
  · obtain ⟨rule, hrule, hlasts⟩ := hheld
    exact ⟨rule, hrules ▸ hrule, hlasts⟩
  · obtain rfl := List.mem_singleton.mp hx
    refine ⟨rfl, (h.apart m hm), rfl, fun record' hbody => ?_, fun src' dst' hbody => ?_⟩
    · obtain rfl := Body.request.inj hbody
      exact ⟨_, _, _, hvalid⟩
    · cases hbody
  · exact h.rules m.receiver key rule (hrules ▸ hrule)
  · rcases Stops.get?_askAnew P hget with ⟨hkey, rfl⟩ | hold
    · obtain ⟨rfl, hid⟩ := Prod.mk.inj hkey
      obtain rfl := hlaw.apart _ _ hid
      refine .inr ⟨((⌊n.now⌋₊ + 900 : ℕ) : R), ?_, ?_⟩
      · have hfloor := Nat.lt_floor_add_one n.now
        show n.now + (stopRelayTtl : R) * (4 / 5) ≤ _
        unfold stopRelayTtl
        push_cast
        linarith
      · refine h.met_new ha ⟨hsrc, fun hid => ?_⟩ hvalid (fun x hx => ?_) (h.apart m hm)
          (List.mem_singleton.mpr rfl)
        · exact h.apart m hm (hlaw.apart _ _ hid).symm
        · rw [List.mem_singleton.mp hx]
    · exact .inl hold
  · exact .inl ⟨rule, hrules ▸ hrule, htold, rfl⟩

theorem Honest.tells (h : Honest me a b n) (hlaw : Lawful P me) (ha : 0 ≤ a) (hb : 0 ≤ b)
    (hm : m ∈ n.flight) (hbody : m.body = .packet src dst) (hsrc : src ≠ (me m.sender).id) {rule : Rule R}
    (hrule : (n.stops m.receiver).rules.get? (src, dst) = some rule) :
    Honest me a b (Accused.after n m ((n.stops m.receiver).noteRule (src, dst)
      { rule with told := rule.told.set (me m.sender).id n.now })
      [⟨m.receiver, m.sender, n.now, .request rule.record⟩]) := by
  have hpacket : ¬ m.IsRequest := by
    rintro ⟨record, hrecord⟩
    rw [hrecord] at hbody
    cases hbody
  obtain ⟨hdst, k, hvalid, hk⟩ := h.rules m.receiver _ rule hrule
  have hget : ∀ {key rule'}, ((n.stops m.receiver).noteRule (src, dst)
      { rule with told := rule.told.set (me m.sender).id n.now }).rules.get? key = some rule' →
      key = (src, dst) ∧ rule' = { rule with told := rule.told.set (me m.sender).id n.now } ∨
        (n.stops m.receiver).rules.get? key = some rule' := by
    intro key rule' hget
    exact (Dict.get?_of_set hget).imp_right And.right
  refine h.after ha hb hpacket (fun key e _ hheld => ?_) (fun x hx => ?_) (fun key rule' hrule' => ?_)
    (fun j src' asked hget => .inl hget) (fun j key rule' t hrule' htold => ?_)
  · obtain ⟨old, hold, hlasts⟩ := hheld
    by_cases hkey : (src, dst) = key
    · subst hkey
      obtain rfl := Option.mem_unique hrule hold
      exact ⟨_, Dict.get?_set_self _ _ _, hlasts⟩
    · exact ⟨old, (Dict.get?_set_of_ne _ hkey _).trans hold, hlasts⟩
  · obtain rfl := List.mem_singleton.mp hx
    refine ⟨rfl, (h.apart m hm), rfl, fun record' hbody => ?_, fun src' dst' hbody => ?_⟩
    · obtain rfl := Body.request.inj hbody
      exact ⟨_, _, _, hvalid⟩
    · cases hbody
  · rcases hget hrule' with ⟨rfl, rfl⟩ | hold
    · exact ⟨hdst, k, hvalid, hk⟩
    · exact h.rules m.receiver key rule' hold
  · rcases hget hrule' with ⟨rfl, rfl⟩ | hold
    · dsimp only at htold ⊢
      rw [Dict.get?_set] at htold
      split_ifs at htold with hid
      · obtain rfl := hlaw.apart _ _ hid
        cases htold
        refine .inr (hk ▸ h.met_new ha ⟨hsrc, ?_⟩ hvalid (fun x hx => ?_) (h.apart m hm)
          (List.mem_singleton.mpr rfl))
        · exact (h.carried m hm src dst hbody).resolve_left hsrc
        · rw [List.mem_singleton.mp hx]
      · exact .inl ⟨rule, hrule, htold, rfl⟩
    · exact .inl ⟨rule', hold, htold, rfl⟩

omit [DecidableEq ι] in
/-- A neighbour that goes on after the grace has not been asked: what comes in was let through before its
request was served. -/
theorem Met.timely {here there : ι} {s t u : R} (hmet : Met me a n here there src dst t u)
    (h : Honest me a b n) (hab : a + b ≤ stopRelayGrace)
    (hm : ⟨there, here, s, .packet src dst⟩ ∈ n.flight) (hlive : n.now < u) :
    n.now - t ≤ stopRelayGrace := by
  have hpast := h.past _ hm
  have hpacket := h.packets _ hm (by rintro ⟨record, hrecord⟩; cases hrecord)
  rcases hmet.older s hm with hbefore | hover
  · dsimp only at hpacket
    linarith
  · exact absurd (hover.trans hpast) (not_le.mpr hlive)

theorem Honest.arrive (h : Honest me a b n) (hlaw : Lawful P me) (ha : 0 ≤ a) (hb : 0 ≤ b)
    (hab : a + b ≤ stopRelayGrace) (hm : m ∈ n.flight) (hbody : m.body = .packet src dst)
    {announces isSuspect : Bool} {next : Option ι} (hnext : next ≠ some m.receiver) :
    Honest me a b (step P me n (.arrive m announces isSuspect true next)) := by
  have hpacket : ¬ m.IsRequest := by
    rintro ⟨record, hrecord⟩
    rw [hrecord] at hbody
    cases hbody
  have hm' : ⟨m.sender, m.receiver, m.at_, .packet src dst⟩ ∈ n.flight := hbody ▸ hm
  obtain ⟨refused, stops, effects, hr⟩ : ∃ refused stops effects, (n.stops m.receiver).refuseRouted P
      (me m.receiver) (clock n.now) (me m.sender).id announces isSuspect src dst =
        (refused, stops, effects) := ⟨_, _, _, rfl⟩
  have hrefusal := @Stops.refusal _ _ _ P (me m.receiver) (clock n.now) (me m.sender).id src dst
    (n.stops m.receiver) announces isSuspect
  rw [hr] at hrefusal
  have hstep := @step_arrive _ _ _ _ _ P me _ _ _ _ _ _ _ _ _ _ next hbody hr
  have hpassed : passed me n m.receiver true src dst next = [] := if_pos (.inl rfl)
  dsimp only at hrefusal
  cases hrefusal with
  | passed hfree =>
    rw [hstep rfl]
    refine h.quietly ha hb hpacket hnext (fun _ _ => id) rfl (fun _ _ _ => id) (fun _ hdst e hheld => ?_)
    obtain ⟨rule, hrule, -⟩ := hheld
    rw [hfree.resolve_left hdst] at hrule
    cases hrule
  | lapsed rule hdst hrule hover =>
    rw [hstep rfl]
    have hlapsed : ∀ e, (n.stops m.receiver).Holds (src, dst) e → e ≤ n.now := by
      rintro e ⟨rule', hrule', hlasts⟩
      obtain rfl := Option.mem_unique hrule hrule'
      exact hlasts.trans hover
    refine h.quietly ha hb hpacket hnext (fun key rule' hrule' => (Dict.get?_of_pop hrule').2) rfl
      (fun key e hlive hheld => ?_) (fun _ _ => hlapsed)
    obtain ⟨rule', hrule', hlasts⟩ := hheld
    have hne : key ≠ (src, dst) := by
      rintro rfl
      exact absurd (hlapsed e ⟨rule', hrule', hlasts⟩) (not_le.mpr hlive)
    exact ⟨rule', (Dict.get?_pop_of_ne _ hne).trans hrule', hlasts⟩
  | dropped =>
    rw [hstep rfl]
    exact h.quietly ha hb hpacket hnext (fun _ _ => id) rfl (fun _ _ _ => id) (fun hno => nomatch hno)
  | asks record hdst hsrc hbuild =>
    rw [hstep rfl, hpassed]
    exact h.asks hlaw ha hb hm hpacket hsrc hbuild
  | stillDelivers asked hdst hsrc hasked hlive hgrace =>
    subst hdst
    obtain ⟨e, hlasts, hmet⟩ := h.asked _ _ _ _ hasked
    exact absurd (hmet.timely h hab hm' (hlive.trans_le hlasts)) (not_le.mpr hgrace)
  | tells rule hdst hsrc hrule hlive =>
    rw [hstep rfl, hpassed]
    exact h.tells hlaw ha hb hm hbody hsrc hrule
  | stillFeeds rule told hdst hsrc hrule hlive htold hgrace =>
    exact absurd ((h.told _ _ _ _ _ hrule htold).timely h hab hm' hlive) (not_le.mpr hgrace)

/-! ### A request comes in -/

omit [IsStrictOrderedRing R] in
theorem Met.serve {here there : ι} {t u : R} (hmet : Met me a n here there src dst t u)
    (hholds : ∀ key e, n.now < e → (n.stops m.receiver).Holds key e → stops.Holds key e)
    (hserved : ∀ record src dst k, m.body = .request record → Valid me record src dst k n.now →
      dst ≠ (me m.receiver).id → stops.Holds (src, dst) k ∨ (k : R) ≤ n.now) :
    Met me a (Accused.after n m stops []) here there src dst t u where
  other := hmet.other
  covered := by
    have hstops : ∀ {key e}, n.now < e → (n.stops there).Holds key e →
        ((Accused.after n m stops []).stops there).Holds key e := by
      intro key e hlive hheld
      by_cases hthere : there = m.receiver
      · subst hthere
        rw [stops_after_self]
        exact hholds key e hlive hheld
      · rw [stops_after_of_ne hthere]
        exact hheld
    rcases hmet.covered with ⟨record, k, hmem, hvalid, hk⟩ | hheld | hover
    · by_cases hself : ⟨here, there, t, .request record⟩ = m
      · subst hself
        rcases hserved record src dst k rfl hvalid hmet.other.2 with hheld | hover
        · refine .inr (.inl ?_)
          rw [stops_after_self (m := ⟨here, there, t, .request record⟩), ← hk]
          exact hheld
        · exact .inr (.inr (hk ▸ hover))
      · exact .inl ⟨record, k, List.mem_append_left _ ((List.mem_erase_of_ne hself).mpr hmem), hvalid, hk⟩
    · rcases lt_or_ge n.now u with hlive | hover
      · exact .inr (.inl (hstops hlive hheld))
      · exact .inr (.inr hover)
    · exact .inr (.inr hover)
  older s hmem := by
    rw [Accused.after, List.append_nil] at hmem
    exact hmet.older s (List.mem_of_mem_erase hmem)

theorem Honest.serve (h : Honest me a b n) (hlaw : Lawful P me) (hm : m ∈ n.flight)
    (hbody : m.body = .request record) (hin : Honoured P me a b n (.serve m false)) :
    Honest me a b (step P me n (.serve m false)) := by
  obtain ⟨-, hrate, hwelcome⟩ := hin
  have hroom : ∀ request, parse P record ⌊n.now⌋₊ = some request →
      (n.stops m.receiver).Roomy n.now request := by
    intro request hparse
    refine hwelcome request (Option.bind_eq_some_iff.mpr ⟨record, ?_, hparse⟩)
    rw [Message.record, hbody]
  set stops := (n.stops m.receiver).handleStopRelay P (me m.receiver) (clock n.now) (me m.sender).id.raw
    record with hstops
  have hstep : step P me n (.serve m false) = Accused.after n m stops [] := by
    unfold step Accused.after
    dsimp only
    rw [hbody, List.append_nil]
    rfl
  have hcases := @Stops.handle_cases _ _ _ P (clock n.now) (n.stops m.receiver) (me m.receiver)
    (me m.sender).id.raw record
  have hholds : ∀ key e, n.now < e → (n.stops m.receiver).Holds key e → stops.Holds key e := by
    intro key e hlive hheld
    rcases hcases with ⟨hsame, -⟩ | ⟨request, hparse, -, hhonoured⟩
    · obtain ⟨rule, hrule, hlasts⟩ := hheld
      exact ⟨rule, hsame ▸ hrule, hlasts⟩
    · rw [hstops, hhonoured]
      exact Stops.Holds.honour hheld hlive (hroom request hparse)
  have hserved : ∀ record' src dst k, m.body = .request record' → Valid me record' src dst k n.now →
      dst ≠ (me m.receiver).id → stops.Holds (src, dst) k ∨ (k : R) ≤ n.now := by
    intro record' src dst k hbody' hvalid hdst
    obtain rfl := Body.request.inj (hbody.symm.trans hbody')
    rcases lt_or_ge n.now (k : R) with hlive | hover
    · obtain ⟨issued, hparse⟩ := hvalid.parse hlaw ((Nat.floor_lt h.start).mpr hlive)
      have hroomy := hroom _ hparse
      refine .inl ?_
      rw [hstops, Stops.handle_honours hrate (hvalid.small hlaw) hparse hdst]
      have hexpiry : Stops.expiry (clock n.now) ⟨dst, src, issued, k⟩ = (k : R) := by
        show n.now + max 0 ((k : R) - n.now) = k
        rw [max_eq_right (sub_nonneg.mpr hlive.le)]
        ring
      rw [← hexpiry]
      exact Stops.holds_honour hroomy
    · exact .inr hover
  have hmet : ∀ {here there : ι} {src dst : NodeID} {t u : R}, Met me a n here there src dst t u →
      Met me a (Accused.after n m stops []) here there src dst t u :=
    fun hmet => hmet.serve hholds hserved
  have hflight : ∀ x ∈ (Accused.after n m stops []).flight, x ∈ n.flight := by
    intro x hx
    rw [Accused.after, List.append_nil] at hx
    exact List.mem_of_mem_erase hx
  have hrules : ∀ {key rule}, stops.rules.get? key = some rule →
      (n.stops m.receiver).rules.get? key = some rule ∨ key.2 ≠ (me m.receiver).id ∧ rule.told = .empty ∧
        ∃ e, Valid me rule.record key.1 key.2 e n.now ∧ (e : R) = rule.until_ := by
    intro key rule hrule
    rcases hcases with ⟨hsame, -⟩ | ⟨request, hparse, hother, hhonoured⟩
    · exact .inl (hsame ▸ hrule)
    · rw [hstops, hhonoured] at hrule
      rcases Stops.rules_honour hrule with hold | ⟨rfl, hrecord, huntil, htold⟩
      · exact .inl hold
      · obtain ⟨src, dst, k, hvalid⟩ := h.valid m hm record hbody
        obtain ⟨rfl, rfl, rfl, hlive⟩ := hvalid.of_parse hlaw hparse
        refine .inr ⟨hother, htold, request.expiresAt, hrecord ▸ hvalid, ?_⟩
        rw [huntil]
        show _ = n.now + max 0 ((request.expiresAt : R) - n.now)
        rw [max_eq_right (sub_nonneg.mpr ((Nat.floor_lt h.start).mp hlive).le)]
        ring
  have hasked : stops.asked = (n.stops m.receiver).asked := by
    rcases hcases with ⟨-, hsame⟩ | ⟨request, -, -, hhonoured⟩
    · exact hsame
    · rw [hstops, hhonoured, Stops.asked_honour]
  rw [hstep]
  constructor
  case start => exact h.start
  case past => exact fun x hx => h.past x (hflight x hx)
  case requests => exact fun x hx => h.requests x (hflight x hx)
  case packets => exact fun x hx => h.packets x (hflight x hx)
  case apart => exact fun x hx => h.apart x (hflight x hx)
  case carried => exact fun x hx => h.carried x (hflight x hx)
  case valid => exact fun x hx => h.valid x (hflight x hx)
  case silent => exact h.silent
  case rules =>
    intro i key rule hrule
    by_cases hi : i = m.receiver
    · subst hi
      rw [stops_after_self] at hrule
      rcases hrules hrule with hold | ⟨hother, -, hvalid⟩
      · exact h.rules _ key rule hold
      · exact ⟨hother, hvalid⟩
    · exact h.rules i key rule (by rwa [stops_after_of_ne hi] at hrule)
  case asked =>
    intro i j src asked hget
    have hold : (n.stops i).asked.get? (src, (me j).id) = some asked := by
      by_cases hi : i = m.receiver
      · subst hi
        rwa [stops_after_self, hasked] at hget
      · rwa [stops_after_of_ne hi] at hget
    obtain ⟨e, hle, hm⟩ := h.asked i j src asked hold
    exact ⟨e, hle, hmet hm⟩
  case told =>
    intro i j key rule t hrule htold
    by_cases hi : i = m.receiver
    · subst hi
      rw [stops_after_self] at hrule
      rcases hrules hrule with hold | ⟨-, hempty, -⟩
      · exact hmet (h.told _ j key rule t hold htold)
      · rw [hempty] at htold
        cases htold
    · exact hmet (h.told i j key rule t (by rwa [stops_after_of_ne hi] at hrule) htold)

/-! ### Every run -/

theorem Honest.lose (h : Honest me a b n) (ha : 0 ≤ a) (hb : 0 ≤ b) (hpacket : ¬ m.IsRequest) :
    Honest me a b { n with flight := n.flight.erase m } := by
  have hsame : { n with flight := n.flight.erase m } =
      Accused.after n m (n.stops m.receiver) [] := by
    rw [Accused.after, Function.update_eq_self, List.append_nil]
  rw [hsame]
  exact h.after ha hb hpacket (fun _ _ _ => id) (fun x hx => nomatch hx) (h.rules m.receiver)
    (fun _ _ _ => .inl) (fun j key rule t hrule htold => .inl ⟨rule, hrule, htold, rfl⟩)

omit [DecidableEq ι] in
theorem Honest.originate (h : Honest me a b n) (ha : 0 ≤ a) (hb : 0 ≤ b) {node next : ι}
    (hne : node ≠ next) :
    Honest me a b { n with
      flight := n.flight ++ [⟨node, next, n.now, .packet (me node).id dst⟩] } := by
  set x : Message ι R := ⟨node, next, n.now, .packet (me node).id dst⟩ with hx
  have hcases : ∀ {y}, y ∈ n.flight ++ [x] → y ∈ n.flight ∨ y = x := by
    intro y hy
    exact (List.mem_append.mp hy).imp id List.mem_singleton.mp
  have hmet : ∀ {here there : ι} {src dst' : NodeID} {t u : R}, Met me a n here there src dst' t u →
      Met me a { n with flight := n.flight ++ [x] } here there src dst' t u := by
    intro here there src dst' t u hmet
    refine hmet.change rfl (fun r hr _ => List.mem_append_left _ hr) (fun _ _ _ => id) (fun s hmem => ?_)
    rcases hcases hmem with hmem | hmem
    · exact .inl hmem
    · rw [hx] at hmem
      injection hmem with hsender _ _ hbody
      injection hbody with hsrc _
      exact absurd (hsender ▸ hsrc) hmet.other.1
  constructor
  case start => exact h.start
  case silent => exact h.silent
  case rules => exact h.rules
  case past =>
    intro y hy
    rcases hcases hy with hy | rfl
    · exact h.past y hy
    · exact le_rfl
  case requests =>
    intro y hy hrequest
    rcases hcases hy with hy | rfl
    · exact h.requests y hy hrequest
    · exact le_add_of_nonneg_right ha
  case packets =>
    intro y hy hpacket
    rcases hcases hy with hy | rfl
    · exact h.packets y hy hpacket
    · exact le_add_of_nonneg_right hb
  case apart =>
    intro y hy
    rcases hcases hy with hy | rfl
    · exact h.apart y hy
    · exact hne
  case carried =>
    intro y hy src dst' hbody
    rcases hcases hy with hy | rfl
    · exact h.carried y hy src dst' hbody
    · exact .inl (Body.packet.inj hbody).1.symm
  case valid =>
    intro y hy record hbody
    rcases hcases hy with hy | rfl
    · exact h.valid y hy record hbody
    · cases hbody
  case asked =>
    intro i j src asked hget
    obtain ⟨e, hle, hm⟩ := h.asked i j src asked hget
    exact ⟨e, hle, hmet hm⟩
  case told =>
    intro i j key rule t hrule htold
    exact hmet (h.told i j key rule t hrule htold)

theorem Honest.step (h : Honest me a b n) (hlaw : Lawful P me) (ha : 0 ≤ a) (hb : 0 ≤ b)
    (hab : a + b ≤ stopRelayGrace) {act : Network.Action ι R} (hallowed : Allowed n act)
    (hin : Honoured P me a b n act) : Honest me a b (step P me n act) := by
  cases act with
  | wait d => exact h.wait (P := P) hallowed.1 hin
  | originate node next dst => exact h.originate ha hb hallowed
  | lose m => exact h.lose ha hb hallowed.2
  | arrive m announces isSuspect sends next =>
    obtain ⟨hm, hpacket, hnext⟩ := hallowed
    obtain rfl : sends = true := hin
    cases hbody : m.body with
    | request record => exact absurd ⟨record, hbody⟩ hpacket
    | packet src dst => exact h.arrive hlaw ha hb hab hm hbody hnext
  | serve m tarpit =>
    obtain ⟨hm, record, hbody⟩ := hallowed
    obtain rfl : tarpit = false := hin.1
    exact h.serve hlaw hm hbody hin

end After

/-! ### Relay 1

The packets of sources 2, 3, … reach destination 0 through relay 1. Every signature verifies. -/

def node (i : Fin 35) : Local where
  id := turning.fromPublicKey [UInt8.ofNat i]
  dsaPublicKey := [UInt8.ofNat i]
  sign _ := []

instance (m : Message (Fin 35) ℚ) : Decidable m.IsRequest :=
  match h : m.body with
  | .packet _ _ => .isFalse fun ⟨_, hrecord⟩ => nomatch h.symm.trans hrecord
  | .request record => .isTrue ⟨record, h⟩

instance (n : Net (Fin 35) ℚ) (act : Network.Action (Fin 35) ℚ) : Decidable (Allowed n act) := by
  unfold Allowed
  split <;> infer_instance

instance (a b : ℚ) (n : Net (Fin 35) ℚ) (act : Network.Action (Fin 35) ℚ) :
    Decidable (Honoured turning node a b n act) := by
  unfold Honoured
  split <;> infer_instance

def comes (i : Fin 35) (now : ℚ) (next : Option (Fin 35)) : List (Network.Action (Fin 35) ℚ) :=
  [.originate i 1 (node 0).id, .arrive ⟨i, 1, now, .packet (node i).id (node 0).id⟩ true false true next]

def crosses (i : Fin 35) (now : ℚ) : List (Network.Action (Fin 35) ℚ) :=
  comes i now (some 0) ++ [.arrive ⟨1, 0, now, .packet (node i).id (node 0).id⟩ true true true none]

def requested (i : Fin 35) : List (Network.Action (Fin 35) ℚ) :=
  match build turning (node i).id (node 0).dsaPublicKey (node 0).sign stopRelayTtl 0 with
  | none => []
  | some record => [.serve ⟨0, 1, 0, .request record⟩ false]

/-- Sources 2 to 34 are refused at once; the last of them sends again after eleven seconds. -/
def crowd : List (Network.Action (Fin 35) ℚ) :=
  ((List.finRange 35).drop 2).flatMap (fun i => crosses i 0 ++ requested i) ++ .wait 11 :: crosses 34 11

theorem lawful_node : Lawful turning node where
  names _ := rfl
  apart := by decide +kernel
  verifies _ _ := rfl
  pubLen i := (by decide : 1 ≤ maxPubkey)
  sigLen _ _ := Nat.zero_le _
  small i _ := (by decide : headerSize + 1 + 0 ≤ stopRelayMax)

end NMesh.StopRelay.Accused
