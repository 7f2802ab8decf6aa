import NMesh.KeyShare.Exchange
import NMesh.Base.Runs
import Mathlib.Data.List.Infix
import Mathlib.Logic.Function.Basic

/-! # Handing over a publisher key

Any number of honest nodes hand publisher keys to one another. The network is the adversary's: any packet
may come in, on any link and at any time, under any source. What it cannot do is sign for an honest node
(`Unforged`), and an offer's random id is new at the node that draws it (`Allowed`). In every reachable
state the secrets are where they should be (`handed_over`). -/

namespace NMesh.KeyShare.Handover

open Base.BigEndian Base.Utf8 Base.Hex Base.Ordered Base.Runs
open NMesh.Cert.Identity NMesh.KeyShare.Message NMesh.KeyShare.Exchange

variable {R : Type} (P : Suite)

/-! ### A node -/

inductive Deed
  | packet (kind : Kind) (peer : Bytes) (src : NodeID) (payload : Bytes)
  | offer (target : NodeID) (pair : Option (Bytes × Bytes)) (label : Text)
  | accept (offerIdHex passphrase : Text)
  | refuse (offerIdHex : Text)
  | overview
  /-- The node signs something else. -/
  | sign (message : Bytes)

/-- A node: its tables, what happened, and what else it has signed. -/
structure Host (R : Type) where
  tables : Tables R
  log : List (Event R)
  others : List Bytes

def turn [Field R] [LinearOrder R] (me : Local) (env : Env R) (t : Tables R) : Deed → Turn R
  | .packet kind peer src payload => handle P me env kind peer src payload t
  | .offer target pair label => offerPublisherKey P me env target pair label t
  | .accept offerIdHex passphrase => acceptPublisherKey me env offerIdHex passphrase t
  | .refuse offerIdHex => refusePublisherKey offerIdHex t
  | .overview => keyShareOverview env t
  | .sign _ => quiet t

def signature : Deed → List Bytes
  | .sign message => [message]
  | _ => []

def Host.step [Field R] [LinearOrder R] (me : Local) (h : Host R) (a : Env R × Deed) : Host R :=
  let t := turn P me a.1 h.tables a.2
  ⟨t.tables, h.log ++ t.out, h.others ++ signature a.2⟩

def acceptanceOf (me : Local) : Event R → Option Bytes
  | .accepted offerId row kemPublic ts => some (acceptInput offerId me.id row.fromId ts kemPublic)
  | _ => none

def Host.signed (me : Local) (h : Host R) : List Bytes := h.log.filterMap (acceptanceOf me) ++ h.others

def newHost : Host R := ⟨.empty, [], []⟩

/-! ### The world -/

section World

variable {ι : Type} [DecidableEq ι] (me : ι → Local)

def step [Field R] [LinearOrder R] (w : ι → Host R) (a : ι × Env R × Deed) : ι → Host R :=
  Function.update w a.1 ((w a.1).step P (me a.1) a.2)

/-- **Nobody signs for an honest node**: what verifies under its key, it has signed. -/
def Unforged (w : ι → Host R) (signature : Bytes) : Prop :=
  ∀ j message, P.verify message signature (me j).dsaPublicKey = true → message ∈ (w j).signed (me j)

/-- What may happen: no packet carries a forged signature, and an offer's id is new. -/
def Allowed (w : ι → Host R) (a : ι × Env R × Deed) : Prop :=
  match a.2.2 with
  | .packet _ _ _ payload => ∀ signature, signature <:+ payload → Unforged P me w signature
  | .offer _ _ _ => ∀ row, .offered a.2.1.urandom row ∉ (w a.1).log
  | _ => True

def Named : Prop := ∀ j pub, P.fromPublicKey pub = (me j).id → pub = (me j).dsaPublicKey

/-- If the key of this public half is an honest node's, then that node has signed the message. -/
def Vouched (w : ι → Host R) (pub message : Bytes) : Prop :=
  ∀ j, pub = (me j).dsaPublicKey → message ∈ (w j).signed (me j)

end World

/-! ### What the log says -/

section Log

variable (me : Local) (V : Bytes → Bytes → Prop) (log : List (Event R))

/-- The row of a received offer was offered under a signature of the very key. -/
def Received (offerId : Bytes) (fromId : NodeID) (publisher : Bytes) (label : Text) : Prop :=
  ∃ offer : Offer, .received fromId offer ∈ log ∧ offer.offerId = offerId ∧
    offer.publisher = publisher ∧ offer.label = label

/-- An event follows from those before it. `V` says which keys stand for which messages. -/
def Follows (pre : List (Event R)) : Event R → Prop
  | .sent _ => True
  | .received src offer => ∃ encoded signature, encodeUtf8 offer.label = some encoded ∧
      P.verify (offerInput offer.offerId src me.id offer.ts offer.publisher encoded) signature
        offer.publisher = true
  | .offered offerId _ => ∀ row, .offered offerId row ∉ pre
  | .accepted offerId row _ _ => Received pre offerId row.fromId row.publisher row.label
  | .granted offerId row kemPublic => .offered offerId row ∈ pre ∧
      (∀ row' kemPublic', .granted offerId row' kemPublic' ∉ pre) ∧
      ∃ pub ts signature, P.fromPublicKey pub = row.toId ∧
        P.verify (acceptInput offerId row.toId me.id ts kemPublic) signature pub = true ∧
          V pub (acceptInput offerId row.toId me.id ts kemPublic)
  | .kept offerId row secret => (∃ kemPublic ts, .accepted offerId row kemPublic ts ∈ pre) ∧
      fromPair P row.publisher secret = true

/-- The tables hold what the log says, and few rows. -/
structure Filed (t : Tables R) : Prop where
  incoming : ∀ offerId row, t.offersIn.get? offerId = some row →
    Received log offerId row.fromId row.publisher row.label
  outgoing : ∀ offerId row, t.offersOut.get? offerId = some row → .offered offerId row ∈ log ∧
    ∀ row' kemPublic, .granted offerId row' kemPublic ∉ log
  awaited : ∀ offerId row, t.accepts.get? offerId = some row →
    ∃ kemPublic ts, .accepted offerId row kemPublic ts ∈ log
  few : t.offersIn.size ≤ maxKeyOffers ∧ t.offersOut.size ≤ maxKeyOffers ∧ t.accepts.size ≤ maxKeyOffers

/-- A turn follows from the log. -/
structure Good (t : Turn R) : Prop where
  out : Each (fun pre e => Follows P me V (log ++ pre) e) t.out
  filed : Filed (log ++ t.out) t.tables

end Log

/-! ### What a call does -/

section Calls

variable {P : Suite} {me : Local} {V : Bytes → Bytes → Prop} {log : List (Event R)} {t : Tables R}
  {env : Env R}

variable {offerId : Bytes}

theorem Received.mono {es : List (Event R)} {publisher : Bytes} {fromId : NodeID} {label : Text}
    (h : Received log offerId fromId publisher label) :
    Received (log ++ es) offerId fromId publisher label := by
  obtain ⟨offer, hmem, hrest⟩ := h
  exact ⟨offer, List.mem_append_left _ hmem, hrest⟩

theorem get?_remember {ν : Type} {table : Dict Bytes ν} {offerId' : Bytes} {row row' : ν}
    (h : (Tables.remember table offerId row).get? offerId' = some row') :
    offerId' = offerId ∧ row' = row ∨ table.get? offerId' = some row' := by
  exact (Dict.get?_of_set (Dict.get?_of_makeRoom h)).imp_right And.right

theorem size_remember {ν : Type} (table : Dict Bytes ν) (offerId : Bytes) (row : ν) :
    (Tables.remember table offerId row).size ≤ maxKeyOffers :=
  Nat.le_of_lt_succ (Dict.size_makeRoom_lt (Nat.succ_pos _) le_rfl)

theorem offered_of_granted (hlog : Each (Follows P me V) log) {kemPublic : Bytes}
    {row : Outgoing R} (hmem : .granted offerId row kemPublic ∈ log) : .offered offerId row ∈ log := by
  obtain ⟨pre, post, rfl⟩ := List.append_of_mem hmem
  exact List.mem_append_left _ (hlog pre _ post rfl).1

theorem Filed.append (h : Filed log t) {es : List (Event R)}
    (hes : ∀ offerId row kemPublic, .granted offerId row kemPublic ∉ es) : Filed (log ++ es) t where
  incoming offerId row hrow := (h.incoming offerId row hrow).mono
  outgoing offerId row hrow := by
    obtain ⟨hoffered, hnone⟩ := h.outgoing offerId row hrow
    refine ⟨List.mem_append_left _ hoffered, fun row' kemPublic hmem => ?_⟩
    rcases List.mem_append.mp hmem with hmem | hmem
    · exact hnone row' kemPublic hmem
    · exact hes offerId row' kemPublic hmem
  awaited offerId row hrow := by
    obtain ⟨kemPublic, ts, hmem⟩ := h.awaited offerId row hrow
    exact ⟨kemPublic, ts, List.mem_append_left _ hmem⟩
  few := h.few

theorem Filed.quiet (h : Filed log t) : Good P me V log (quiet t) :=
  ⟨each_nil, by rw [Exchange.quiet, List.append_nil]; exact h⟩

theorem Filed.charge (h : Filed log t) : Good P me V log (charge t) :=
  ⟨each_nil, by rw [Exchange.charge, List.append_nil]; exact h⟩

theorem Filed.onAccept (h : Filed log t) (payload : Bytes)
    (hvouched : ∀ message signature pub, signature <:+ payload →
      P.verify message signature pub = true → V pub message) :
    Good P me V log (onAccept P me env payload t) := by
  unfold Exchange.onAccept
  split
  · exact h.charge
  · next offerId hid =>
    split
    · exact h.quiet
    · next pending hpending =>
      split
      · exact h.charge
      · next accept hparse =>
        split
        · exact h.quiet
        · next grant hgrant =>
          obtain ⟨hsame, hnode, signature, hsuffix, hverify⟩ := parseAccept_spec hparse
          obtain rfl : offerId = accept.offerId := Option.mem_unique hid hsame
          obtain ⟨hoffered, hnone⟩ := h.outgoing _ _ hpending
          constructor
          · refine each_cons.mpr ⟨⟨?_, ?_, ?_⟩, each_cons.mpr ⟨trivial, each_nil⟩⟩
            · rw [List.append_nil]
              exact hoffered
            · rw [List.append_nil]
              exact hnone
            · exact ⟨accept.nodePublic, accept.ts, signature, hnode, hverify,
                hvouched _ _ _ hsuffix hverify⟩
          · refine ⟨fun id row hrow => (h.incoming id row hrow).mono, fun id row hrow => ?_,
              fun id row hrow => ?_, h.few.1, (Dict.size_pop_le _ _).trans h.few.2.1, h.few.2.2⟩
            · obtain ⟨hne, hrow⟩ := Dict.get?_of_pop hrow
              obtain ⟨hmem, hno⟩ := h.outgoing id row hrow
              refine ⟨List.mem_append_left _ hmem, fun row' kemPublic hgranted => ?_⟩
              rcases List.mem_append.mp hgranted with hgranted | hgranted
              · exact hno row' kemPublic hgranted
              · simp only [List.mem_cons, Event.granted.injEq, List.not_mem_nil, or_false,
                  reduceCtorEq] at hgranted
                exact hne hgranted.1
            · obtain ⟨kemPublic, ts, hmem⟩ := h.awaited id row hrow
              exact ⟨kemPublic, ts, List.mem_append_left _ hmem⟩

theorem Filed.onGrant (h : Filed log t) (payload : Bytes) :
    Good P me V log (onGrant P me env payload t) := by
  unfold Exchange.onGrant
  split
  · exact h.charge
  · next offerId hid =>
    split
    · exact h.quiet
    · next pending hpending =>
      split
      · exact h.charge
      · next secret hopen =>
        have hpopped : Filed log { t with accepts := t.accepts.pop offerId } :=
          ⟨h.incoming, h.outgoing, fun id row hrow => h.awaited id row (Dict.get?_of_pop hrow).2,
            h.few.1, h.few.2.1, (Dict.size_pop_le _ _).trans h.few.2.2⟩
        dsimp only
        split_ifs with hkeep
        · refine ⟨each_cons.mpr ⟨⟨?_, hkeep.1⟩, each_nil⟩, hpopped.append (by simp)⟩
          rw [List.append_nil]
          exact h.awaited offerId pending hpending
        · exact hpopped.quiet

theorem Filed.refusePublisherKey (h : Filed log t) (offerIdHex : Text) :
    Good P me V log (refusePublisherKey offerIdHex t) := by
  unfold Exchange.refusePublisherKey
  split
  · exact h.quiet
  · next offerId hid =>
    have hpopped : Filed log { t with offersIn := t.offersIn.pop offerId } :=
      ⟨fun id row hrow => h.incoming id row (Dict.get?_of_pop hrow).2, h.outgoing, h.awaited,
        (Dict.size_pop_le _ _).trans h.few.1, h.few.2⟩
    exact hpopped.quiet

theorem Filed.sweep [LinearOrder R] (h : Filed log t) (now : R) : Filed log (t.sweep now) where
  incoming offerId row hrow := h.incoming offerId row (Dict.get?_of_filterVal hrow)
  outgoing offerId row hrow := h.outgoing offerId row (Dict.get?_of_filterVal hrow)
  awaited offerId row hrow := h.awaited offerId row (Dict.get?_of_filterVal hrow)
  few := ⟨(Dict.size_filterVal_le _ _).trans h.few.1, (Dict.size_filterVal_le _ _).trans h.few.2.1,
    (Dict.size_filterVal_le _ _).trans h.few.2.2⟩

variable [Field R]

theorem Filed.onOffer (h : Filed log t) (src : NodeID) (payload : Bytes) :
    Good P me V log (onOffer P me env src payload t) := by
  unfold Exchange.onOffer
  split
  · exact h.charge
  · next offer hparse =>
    split_ifs with hwaiting
    · exact h.quiet
    · have hlog := @Filed.append _ _ _ h [.received src offer] (by simp)
      refine ⟨each_cons.mpr ⟨parseOffer_spec hparse, each_nil⟩, ?_, hlog.outgoing, hlog.awaited,
        size_remember _ _ _, h.few.2⟩
      intro offerId row hrow
      rcases get?_remember hrow with ⟨rfl, rfl⟩ | hrow
      · exact ⟨offer, List.mem_append_right _ (List.mem_singleton.mpr rfl), rfl, rfl, rfl⟩
      · exact hlog.incoming offerId row hrow

variable [LinearOrder R]

theorem Filed.handle (h : Filed log t) (kind : Kind) (peer : Bytes) (src : NodeID) (payload : Bytes)
    (hvouched : ∀ message signature pub, signature <:+ payload →
      P.verify message signature pub = true → V pub message) :
    Good P me V log (handle P me env kind peer src payload t) := by
  unfold Exchange.handle
  dsimp only
  have hrated : Filed log { t with rate := (t.keyShareAllowed peer env.now).2 } :=
    ⟨h.incoming, h.outgoing, h.awaited, h.few⟩
  split_ifs with hallowed
  · exact hrated.quiet
  · have hswept := hrated.sweep env.now
    cases kind with
    | offer => exact hswept.onOffer src payload
    | accept => exact hswept.onAccept payload hvouched
    | grant => exact hswept.onGrant payload

theorem Filed.offerPublisherKey (h : Filed log t) (hlog : Each (Follows P me V) log) (target : NodeID)
    (pair : Option (Bytes × Bytes)) (label : Text) (hnew : ∀ row, .offered env.urandom row ∉ log) :
    Good P me V log (offerPublisherKey P me env target pair label t) := by
  unfold Exchange.offerPublisherKey
  split_ifs with hself
  · exact h.quiet
  · split
    · exact h.quiet
    · next publicKey secret =>
      split_ifs with hpair
      · exact h.quiet
      · split
        · exact h.quiet
        · next offer hbuild =>
          dsimp only
          set row : Outgoing R := ⟨target, publicKey, secret, label, env.now + offerTtl⟩
          have hswept : Filed (log ++ [.offered env.urandom row, .sent ⟨.offer, me.id, target, offer⟩])
              (t.sweep env.now) := (h.sweep env.now).append (by simp)
          refine ⟨each_cons.mpr ⟨?_, each_cons.mpr ⟨trivial, each_nil⟩⟩, hswept.incoming,
            fun id row' hrow => ?_, hswept.awaited, hswept.few.1, size_remember _ _ _, hswept.few.2.2⟩
          · rw [List.append_nil]
            exact hnew
          · rcases get?_remember hrow with ⟨rfl, rfl⟩ | hrow
            · refine ⟨List.mem_append_right _ List.mem_cons_self, fun row' kemPublic hmem => ?_⟩
              rcases List.mem_append.mp hmem with hmem | hmem
              · exact hnew row' (offered_of_granted hlog hmem)
              · simp at hmem
            · exact hswept.outgoing id row' hrow

theorem Filed.acceptPublisherKey (h : Filed log t) (offerIdHex passphrase : Text) :
    Good P me V log (acceptPublisherKey me env offerIdHex passphrase t) := by
  unfold Exchange.acceptPublisherKey
  have hswept := h.sweep env.now
  split_ifs with hempty
  · exact h.quiet
  · dsimp only
    split
    · exact hswept.quiet
    · next offerId hid =>
      split
      · exact hswept.quiet
      · next offer hoffer =>
        have hpopped : Filed log { t.sweep env.now with
            offersIn := (t.sweep env.now).offersIn.pop offerId } :=
          ⟨fun id row hrow => hswept.incoming id row (Dict.get?_of_pop hrow).2, hswept.outgoing,
            hswept.awaited, (Dict.size_pop_le _ _).trans hswept.few.1, hswept.few.2⟩
        split
        · exact hpopped.quiet
        · next accept hbuild =>
          set row : Awaited R := ⟨offer.fromId, offer.publisher, offer.label, env.kemPair.2, passphrase,
            env.now + offerTtl⟩
          have hlog := @Filed.append _ _ _ hpopped [.accepted offerId row env.kemPair.1 env.time,
            .sent ⟨.accept, me.id, offer.fromId, accept⟩] (by simp)
          refine ⟨each_cons.mpr ⟨?_, each_cons.mpr ⟨trivial, each_nil⟩⟩, hlog.incoming, hlog.outgoing,
            fun id row' hrow => ?_, hlog.few.1, hlog.few.2.1, size_remember _ _ _⟩
          · rw [List.append_nil]
            exact hswept.incoming offerId offer hoffer
          · rcases get?_remember hrow with ⟨rfl, rfl⟩ | hrow
            · exact ⟨env.kemPair.1, env.time, List.mem_append_right _ List.mem_cons_self⟩
            · exact hlog.awaited id row' hrow

theorem Filed.turn (h : Filed log t) (hlog : Each (Follows P me V) log) (deed : Deed)
    (hpacket : ∀ kind peer src payload, deed = .packet kind peer src payload →
      ∀ message signature pub, signature <:+ payload → P.verify message signature pub = true →
        V pub message)
    (hnew : ∀ target pair label, deed = .offer target pair label →
      ∀ row, .offered env.urandom row ∉ log) :
    Good P me V log (turn P me env t deed) := by
  cases deed with
  | packet kind peer src payload => exact h.handle kind peer src payload (hpacket _ _ _ _ rfl)
  | offer target pair label => exact h.offerPublisherKey hlog target pair label (hnew _ _ _ rfl)
  | accept offerIdHex passphrase => exact h.acceptPublisherKey offerIdHex passphrase
  | refuse offerIdHex => exact h.refusePublisherKey offerIdHex
  | overview => exact (h.sweep env.now).quiet
  | sign message => exact h.quiet

end Calls

/-! ### Every run -/

section Runs

variable {ι : Type} [DecidableEq ι] {P : Suite} {me : ι → Local} {w : ι → Host R}

theorem Follows.mono {me : Local} {V V' : Bytes → Bytes → Prop}
    (hV : ∀ pub message, V pub message → V' pub message) {pre : List (Event R)} {e : Event R}
    (h : Follows P me V pre e) : Follows P me V' pre e := by
  cases e with
  | granted offerId row kemPublic =>
    obtain ⟨hoffered, hnone, pub, ts, signature, hid, hverify, hvouched⟩ := h
    exact ⟨hoffered, hnone, pub, ts, signature, hid, hverify, hV _ _ hvouched⟩
  | sent _ => trivial
  | received _ _ | offered _ _ | accepted _ _ _ _ | kept _ _ _ => exact h

/-- In every node, the log follows from itself and the tables follow from the log. -/
structure Sound (P : Suite) (me : ι → Local) (w : ι → Host R) : Prop where
  log : ∀ i, Each (Follows P (me i) (Vouched me w)) (w i).log
  filed : ∀ i, Filed (w i).log (w i).tables

omit [DecidableEq ι] in
theorem sound_new : Sound P me fun _ => (newHost : Host R) where
  log _ := each_nil
  filed _ := by
    refine ⟨fun _ _ h => ?_, fun _ _ h => ?_, fun _ _ h => ?_,
      Nat.zero_le _, Nat.zero_le _, Nat.zero_le _⟩ <;> exact nomatch h

variable [Field R] [LinearOrder R]

theorem signed_step (a : ι × Env R × Deed) (j : ι) : (w j).signed (me j) ⊆
    ((step P me w a) j).signed (me j) := by
  unfold step
  by_cases hj : j = a.1
  · subst hj
    rw [Function.update_self]
    intro message hmem
    rcases List.mem_append.mp hmem with hmem | hmem
    · refine List.mem_append_left _ ?_
      rw [Host.step, List.filterMap_append]
      exact List.mem_append_left _ hmem
    · exact List.mem_append_right _ (List.mem_append_left _ hmem)
  · rw [Function.update_of_ne hj]
    exact fun _ hmem => hmem

theorem Sound.step (h : Sound P me w) (a : ι × Env R × Deed) (hallowed : Allowed P me w a) :
    Sound P me (step P me w a) := by
  have hV : ∀ pub message, Vouched me w pub message →
      Vouched me (Handover.step P me w a) pub message :=
    fun pub message hv j hj => signed_step a j (hv j hj)
  have hgood : Good P (me a.1) (Vouched me w) (w a.1).log
      (Handover.turn P (me a.1) a.2.1 (w a.1).tables a.2.2) := by
    refine (h.filed a.1).turn (h.log a.1) a.2.2 (fun kind peer src payload hdeed => ?_)
      (fun target pair label hdeed => ?_)
    · unfold Allowed at hallowed
      rw [hdeed] at hallowed
      intro message signature pub hsuffix hverify j hj
      exact hallowed signature hsuffix j message (hj ▸ hverify)
    · unfold Allowed at hallowed
      rw [hdeed] at hallowed
      exact hallowed
  constructor
  · intro i
    by_cases hi : i = a.1
    · subst hi
      have hlog : ((Handover.step P me w a) a.1).log = (w a.1).log ++
          (Handover.turn P (me a.1) a.2.1 (w a.1).tables a.2.2).out := by
        rw [Handover.step, Function.update_self, Host.step]
      rw [hlog, each_append]
      exact ⟨fun pre e post heq => (h.log a.1 pre e post heq).mono hV,
        fun pre e post heq => (hgood.out pre e post heq).mono hV⟩
    · have hlog : ((Handover.step P me w a) i).log = (w i).log := by
        rw [Handover.step, Function.update_of_ne hi]
      rw [hlog]
      exact fun pre e post heq => (h.log i pre e post heq).mono hV
  · intro i
    unfold Handover.step
    by_cases hi : i = a.1
    · subst hi
      rw [Function.update_self]
      exact hgood.filed
    · rw [Function.update_of_ne hi]
      exact h.filed i

/-! ### The secrets are where they should be -/

def grantOf : Event R → Option Bytes
  | .granted offerId _ _ => some offerId
  | _ => none

/-- What holds at a node, in a world of nodes. -/
structure HandedOver (P : Suite) (me : ι → Local) (w : ι → Host R) (i : ι) : Prop where
  /-- A secret is sealed only to a ML-KEM key that the node offered to has signed, for this offer and
  for this node. -/
  sealedTo : ∀ offerId row kemPublic, .granted offerId row kemPublic ∈ (w i).log →
    .offered offerId row ∈ (w i).log ∧ ∃ pub ts signature, P.fromPublicKey pub = row.toId ∧
      P.verify (acceptInput offerId row.toId (me i).id ts kemPublic) signature pub = true ∧
        ∀ j, row.toId = (me j).id →
          acceptInput offerId (me j).id (me i).id ts kemPublic ∈ (w j).signed (me j)
  /-- An offer yields at most one grant. -/
  once : ((w i).log.filterMap grantOf).Nodup
  /-- Its secret leaves the table with it. -/
  gone : ∀ offerId row kemPublic, .granted offerId row kemPublic ∈ (w i).log →
    (w i).tables.offersOut.get? offerId = none
  /-- A secret is stored after the operator accepted the offer, under the passphrase given then, and it
  belongs to the offered key, which signed the offer to this node. -/
  keptFor : ∀ pre offerId row secret post, (w i).log = pre ++ .kept offerId row secret :: post →
    fromPair P row.publisher secret = true ∧ ∃ before kemPublic ts between,
      pre = before ++ .accepted offerId row kemPublic ts :: between ∧ ∃ offer : Offer,
        .received row.fromId offer ∈ before ∧ offer.offerId = offerId ∧ offer.publisher = row.publisher ∧
          ∃ encoded signature, P.verify (offerInput offerId row.fromId (me i).id offer.ts row.publisher
            encoded) signature row.publisher = true
  /-- No table holds many offers. -/
  few : (w i).tables.offersIn.size ≤ 8 ∧ (w i).tables.offersOut.size ≤ 8 ∧ (w i).tables.accepts.size ≤ 8

omit [Field R] [LinearOrder R] in
theorem grantOf_eq_some {e : Event R} {offerId : Bytes} :
    grantOf e = some offerId ↔ ∃ row kemPublic, e = .granted offerId row kemPublic := by
  cases e <;> simp [grantOf, eq_comm]

omit [DecidableEq ι] [Field R] [LinearOrder R] in
theorem nodup_grants {me : Local} {V : Bytes → Bytes → Prop} {log : List (Event R)}
    (hlog : Each (Follows P me V) log) : (log.filterMap grantOf).Nodup := by
  induction log using List.reverseRecOn with
  | nil => exact List.nodup_nil
  | append_singleton log e ih =>
    obtain ⟨hold, hnew⟩ := each_append.mp hlog
    obtain ⟨hfollows, -⟩ := each_cons.mp hnew
    rw [List.filterMap_append]
    cases hgrant : grantOf e with
    | none =>
      rw [List.filterMap_cons_none hgrant, List.filterMap_nil, List.append_nil]
      exact ih hold
    | some offerId =>
      rw [List.filterMap_cons_some hgrant, List.filterMap_nil]
      refine List.nodup_append.mpr ⟨ih hold, List.nodup_singleton _, ?_⟩
      rintro id hid _ (_ | ⟨_, ⟨⟩⟩) rfl
      obtain ⟨e', he', hgrant'⟩ := List.mem_filterMap.mp hid
      obtain ⟨row, kemPublic, rfl⟩ := grantOf_eq_some.mp hgrant
      obtain ⟨row', kemPublic', rfl⟩ := grantOf_eq_some.mp hgrant'
      rw [List.append_nil] at hfollows
      exact hfollows.2.1 row' kemPublic' he'

omit [DecidableEq ι] [Field R] [LinearOrder R] in
theorem Sound.handedOver (h : Sound P me w) (hnamed : Named P me) (i : ι) : HandedOver P me w i where
  sealedTo offerId row kemPublic hmem := by
    obtain ⟨pre, post, heq⟩ := List.append_of_mem hmem
    obtain ⟨-, -, pub, ts, signature, hid, hverify, hvouched⟩ := h.log i pre _ post heq
    refine ⟨offered_of_granted (h.log i) hmem, pub, ts, signature, hid, hverify, fun j hj => ?_⟩
    have hpub : pub = (me j).dsaPublicKey := hnamed j pub (hid.trans hj)
    rw [← hj]
    exact hvouched j hpub
  once := nodup_grants (h.log i)
  gone offerId row kemPublic hmem := by
    cases hrow : (w i).tables.offersOut.get? offerId with
    | none => rfl
    | some row' => exact absurd hmem (((h.filed i).outgoing offerId row' hrow).2 row kemPublic)
  keptFor pre offerId row secret post heq := by
    obtain ⟨⟨kemPublic, ts, hmem⟩, hpair⟩ := h.log i pre _ post heq
    obtain ⟨before, between, rfl⟩ := List.append_of_mem hmem
    have hbefore : (w i).log = before ++ .accepted offerId row kemPublic ts ::
        (between ++ .kept offerId row secret :: post) := by
      rw [heq, List.append_assoc]
      rfl
    obtain ⟨offer, hreceived, hoffer, hpublisher, -⟩ := h.log i before _ _ hbefore
    obtain ⟨earlier, later, hsplit⟩ := List.append_of_mem hreceived
    have hearlier : (w i).log = earlier ++ .received row.fromId offer :: (later ++
        .accepted offerId row kemPublic ts :: (between ++ .kept offerId row secret :: post)) := by
      rw [hbefore, hsplit, List.append_assoc]
      rfl
    obtain ⟨encoded, signature, -, hverify⟩ := h.log i earlier _ _ hearlier
    refine ⟨hpair, before, kemPublic, ts, between, rfl, offer, hreceived, hoffer, hpublisher,
      encoded, signature, ?_⟩
    rw [← hpublisher, ← hoffer]
    exact hverify
  few := (h.filed i).few

end Runs

/-! ### Two nodes

A signature is a mark, the key and the message; the first of the two nodes hands its publisher key over to
the second. -/

def mark : UInt8 := 0xEE

def spread (data : Bytes) : Bytes :=
  if data.length = 1 then (data ++ List.replicate 32 0).take 32 else List.replicate 32 0xFF

def marked : Suite where
  sha256 := spread
  len data := by unfold spread; split_ifs with h <;> simp
  verify message signature pub := signature = mark :: (pub ++ message)
  signWith secret message := some (mark :: (secret ++ message))
  derive shared _ := shared
  encrypt _ _ secret _ := secret ++ List.replicate tagLen 0
  decrypt _ _ sealedSecret _ := some (sealedSecret.take (sealedSecret.length - tagLen))
  printable c := decide (0x20 ≤ c)

def keyOf (second : Bool) : UInt8 := if second then 0xC9 else 0xC8

def pair (second : Bool) : Local where
  id := marked.fromPublicKey [keyOf second]
  dsaPublicKey := [keyOf second]
  sign message := mark :: keyOf second :: message
  kemDecapsulate _ _ := some [3]

theorem named_pair : Named marked pair := by
  intro j pub h
  have hraw : (spread pub).take 20 = (spread [keyOf j]).take 20 := congrArg NodeID.raw h
  rcases pub with _ | ⟨x, _ | ⟨y, pub⟩⟩
  · revert hraw
    cases j <;> decide
  · have hx : x = keyOf j := by simpa [spread] using hraw
    rw [hx]
    rfl
  · have hlong : spread (x :: y :: pub) = List.replicate 32 0xFF := if_neg (by simp)
    rw [hlong] at hraw
    revert hraw
    cases j
    · exact fun hraw => absurd hraw (by decide)
    · exact fun hraw => absurd hraw (by decide)

def offeredOf : Event ℚ → Option Bytes
  | .offered offerId _ => some offerId
  | _ => none

/-- What carries the mark and a node's key is followed by what that node has signed. -/
def Plain (w : Bool → Host ℚ) (a : Bool × Env ℚ × Deed) : Prop :=
  match a.2.2 with
  | .packet _ _ _ payload => ∀ tail ∈ payload.tails, ∀ j, tail.take 2 = [mark, keyOf j] →
      tail.drop 2 ∈ (w j).signed (pair j)
  | .offer _ _ _ => a.2.1.urandom ∉ (w a.1).log.filterMap offeredOf
  | _ => True

instance (w : Bool → Host ℚ) (a : Bool × Env ℚ × Deed) : Decidable (Plain w a) := by
  unfold Plain
  split <;> infer_instance

theorem Plain.allowed {w : Bool → Host ℚ} {a : Bool × Env ℚ × Deed} (h : Plain w a) :
    Allowed marked pair w a := by
  unfold Plain at h
  unfold Allowed
  split at h
  · intro signature hsuffix j message hverify
    have hsignature : signature = mark :: ([keyOf j] ++ message) := of_decide_eq_true hverify
    have htail := h signature ((List.mem_tails _ _).mpr hsuffix) j (by rw [hsignature]; rfl)
    rw [hsignature] at htail
    exact htail
  · intro row hmem
    exact h (List.mem_filterMap.mpr ⟨_, hmem, rfl⟩)
  · trivial

def calm : Env ℚ where
  now := 1
  time := 1
  urandom := List.replicate 16 7
  kemPair := ([5], [6])
  kemEncapsulate _ := some ([9], [3])
  writes := true

def messages : Option (Bytes × Bytes × Bytes) := do
  let first := pair false
  let second := pair true
  let offer ← buildOffer calm.urandom first.id second.id [0x4D] (marked.signWith [0x4D]) [] 1
  let accept ← buildAccept calm.urandom second.id first.id [5] second.dsaPublicKey second.sign 1
  let grant ← sealGrant marked calm.urandom first.id second.id [0x4D] [0x4D] [5] calm.kemEncapsulate
    (List.replicate 12 8)
  return (offer, accept, grant)

/-- The key is offered, accepted and granted, and the acceptance comes in a second time. -/
def exchange : List (Bool × Env ℚ × Deed) :=
  match messages with
  | none => []
  | some (offer, accept, grant) =>
    [(false, calm, .offer (pair true).id (some ([0x4D], [0x4D])) []),
      (true, calm, .packet .offer [1] (pair false).id offer),
      (true, calm, .accept (toHex calm.urandom) (ascii "open")),
      (false, calm, .packet .accept [1] (pair true).id accept),
      (false, calm, .packet .accept [1] (pair true).id accept),
      (true, calm, .packet .grant [1] (pair false).id grant)]

end NMesh.KeyShare.Handover
