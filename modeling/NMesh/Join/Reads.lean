import NMesh.Join.Codec
import Mathlib.Data.Fintype.Option

/-! # A ticket reads back

`Contents` is what a ticket says: a route, or a route through a relay with the inviter's node id, or both,
a seed and a number of minutes. The two readers accept exactly the bodies that spell out some contents
under flags that agree with them (`Agrees`), and answer what these say; on every other body they raise
`TicketError` (`decodeV2_cases`, `decodeV1_cases`). What `encode` writes is such a body, and `clean` undoes
changes of case and inserted spaces and hyphens (`clean_variant`). -/

namespace NMesh.Join.Reads

open NMesh.Base Base.BigEndian Base.Utf8 Base.Hex Base.Reading NMesh.Join.Codec

variable {W : World} {clock : ℚ} {body rest x : Bytes} {pos n size : ℕ}

/-! ### What a ticket says -/

/-- An address and a port in range. -/
structure Route where
  address : Address
  port : ℕ
  inRange : 1 ≤ port ∧ port ≤ 65535

def Route.bytes (r : Route) : Bytes := r.address.raw ++ toBE 2 r.port

/-- **What a ticket says.** -/
structure Contents where
  direct : Option Route
  relay : Option (Route × { node : Bytes // node.length = nodeBytes })
  seed : { seed : Bytes // seed.length = seedBytes }
  minutes : ℕ
  packs : minutes < 256 ^ 4

namespace Contents

def directBytes (c : Contents) : Bytes := (c.direct.map Route.bytes).getD []

def relayBytes (c : Contents) : Bytes := (c.relay.map fun r => r.1.bytes ++ r.2.1).getD []

def bytes (c : Contents) : Bytes :=
  c.directBytes ++ (c.relayBytes ++ (c.seed.1 ++ toBE 4 c.minutes))

def ticket (W : World) (clock : ℚ) (c : Contents) : Ticket :=
  Codec.ticket clock ((c.direct.map fun r => W.str r.address).getD [])
    ((c.direct.map Route.port).getD 0) ((c.relay.map fun r => W.str r.1.address).getD [])
    ((c.relay.map fun r => r.1.port).getD 0) ((c.relay.map fun r => r.2.1).getD []) c.seed.1 c.minutes

end Contents

/-- The flags announce the routes of the contents. -/
structure Agrees (flags : ℕ) (c : Contents) : Prop where
  direct : flag flags flagDirect = c.direct.isSome
  directV6 : ∀ r, c.direct = some r → flag flags flagDirectV6 = r.address.isV6
  relay : flag flags flagRelay = c.relay.isSome
  relayV6 : ∀ r, c.relay = some r → flag flags flagRelayV6 = r.1.address.isV6

/-! ### The reader -/

theorem addressLen_isV6 (a : Address) : addressLen a.isV6 = a.raw.length := by
  unfold addressLen Address.isV6
  rcases a.len with h | h
  · rw [h]
    rfl
  · rw [h]
    rfl

theorem take_spec (h : From body pos (x ++ rest)) (hx : x.length = n) :
    take body pos n = .ok (x, pos + n) := by
  unfold take
  rw [h.slice hx, if_neg (not_not.mpr hx)]

theorem take_cases (body : Bytes) (pos n : ℕ) :
    take body pos n = .error (.ticketError "this ticket is truncated") ∨
      ∃ x, x.length = n ∧ body.drop pos = x ++ body.drop (pos + n) ∧ take body pos n = .ok (x, pos + n) := by
  unfold take
  by_cases h : (slice body pos n).length ≠ n
  · rw [if_pos h]
    exact Or.inl rfl
  · rw [if_neg h]
    rw [not_not] at h
    refine Or.inr ⟨slice body pos n, h, ?_, rfl⟩
    unfold slice
    rw [← List.drop_drop, List.take_append_drop]

theorem readEndpoint_spec {r : Route} (h : From body pos (r.bytes ++ rest))
    (hsize : size = r.address.raw.length) :
    readEndpoint W body pos size = .ok (W.str r.address, r.port, pos + size + 2) ∧
      From body (pos + size + 2) rest := by
  unfold Route.bytes at h
  rw [List.append_assoc] at h
  have hport := h.next hsize.symm
  have hlt : r.port < 256 ^ 2 := by
    have := r.inRange.2
    omega
  refine ⟨?_, hport.next (length_toBE 2 _)⟩
  unfold readEndpoint
  rw [take_spec h hsize.symm]
  simp only [Except.bind]
  have haddress : addressOf r.address.raw = .ok r.address := dif_pos r.address.len
  have hunpack : unpack 2 (toBE 2 r.port) = .ok r.port := by
    unfold unpack
    rw [if_pos (length_toBE 2 _), ofBE_toBE hlt]
  rw [haddress]
  dsimp only
  rw [take_spec hport (length_toBE 2 _)]
  dsimp only
  rw [hunpack]
  dsimp only
  rw [if_pos r.inRange]

/-- **What is read as a route is one**; else `TicketError` is raised. -/
theorem readEndpoint_cases (W : World) (body : Bytes) (pos : ℕ) (hsize : size = 4 ∨ size = 16) :
    (∃ message, readEndpoint W body pos size = .error (.ticketError message)) ∨
      ∃ r : Route, r.address.raw.length = size ∧
        body.drop pos = r.bytes ++ body.drop (pos + size + 2) ∧
        readEndpoint W body pos size = .ok (W.str r.address, r.port, pos + size + 2) := by
  unfold readEndpoint
  rcases take_cases body pos size with h | ⟨raw, hlen, hdrop, h⟩
  · rw [h]
    exact Or.inl ⟨_, rfl⟩
  · rw [h]
    simp only [Except.bind]
    have haddress : addressOf raw = .ok ⟨raw, by rw [hlen]; exact hsize⟩ := dif_pos (by rw [hlen]; exact hsize)
    rw [haddress]
    dsimp only
    rcases take_cases body (pos + size) 2 with h' | ⟨number, hlen', hdrop', h'⟩
    · rw [h']
      exact Or.inl ⟨_, rfl⟩
    · rw [h']
      have hunpack : unpack 2 number = .ok (ofBE number) := if_pos hlen'
      dsimp only
      rw [hunpack]
      dsimp only
      by_cases hrange : 1 ≤ ofBE number ∧ ofBE number ≤ 65535
      · rw [if_pos hrange]
        refine Or.inr ⟨⟨⟨raw, by rw [hlen]; exact hsize⟩, ofBE number, hrange⟩, hlen, ?_, rfl⟩
        have hnumber : toBE 2 (ofBE number) = number := by
          have := toBE_ofBE number
          rwa [hlen'] at this
        show _ = raw ++ toBE 2 (ofBE number) ++ _
        rw [hnumber, hdrop, hdrop', List.append_assoc]
      · rw [if_neg hrange]
        exact Or.inl ⟨_, rfl⟩

variable {c : Contents}

theorem readEnd_spec (h : From body pos (c.seed.1 ++ toBE 4 c.minutes)) :
    readEnd body pos = .ok (c.seed.1, c.minutes) := by
  have hminutes := h.next c.seed.2
  rw [← List.append_nil (toBE 4 c.minutes)] at hminutes
  have hunpack : unpack 4 (toBE 4 c.minutes) = .ok c.minutes := by
    unfold unpack
    rw [if_pos (length_toBE 4 _), ofBE_toBE c.packs]
  unfold readEnd
  rw [take_spec h c.seed.2]
  simp only [Except.bind]
  rw [take_spec hminutes (length_toBE 4 _)]
  dsimp only
  rw [hunpack]
  rfl

theorem readEnd_cases (body : Bytes) (pos : ℕ) :
    (∃ message, readEnd body pos = .error (.ticketError message)) ∨
      ∃ (seed : { seed : Bytes // seed.length = seedBytes }) (minutes : ℕ), minutes < 256 ^ 4 ∧
        body.drop pos = seed.1 ++ (toBE 4 minutes ++ body.drop (pos + seedBytes + 4)) ∧
        readEnd body pos = .ok (seed.1, minutes) := by
  unfold readEnd
  rcases take_cases body pos seedBytes with h | ⟨seed, hlen, hdrop, h⟩
  · rw [h]
    exact Or.inl ⟨_, rfl⟩
  · rw [h]
    simp only [Except.bind]
    rcases take_cases body (pos + seedBytes) 4 with h' | ⟨packed, hlen', hdrop', h'⟩
    · rw [h']
      exact Or.inl ⟨_, rfl⟩
    · rw [h']
      have hunpack : unpack 4 packed = .ok (ofBE packed) := if_pos hlen'
      dsimp only
      rw [hunpack]
      have hlt := ofBE_lt packed
      have hbytes := toBE_ofBE packed
      rw [hlen'] at hlt hbytes
      refine Or.inr ⟨⟨seed, hlen⟩, ofBE packed, hlt, ?_, rfl⟩
      rw [hbytes, hdrop, hdrop']

/-! ### Version 2 -/

theorem flag_or (flags a b : ℕ) : flag flags (a ||| b) = (flag flags a || flag flags b) := by
  unfold flag
  rw [Nat.and_or_distrib_left, ← Bool.decide_or]
  rw [decide_eq_decide, ne_eq, Nat.or_eq_zero_iff, not_and_or]

theorem Route.length_bytes (r : Route) : r.bytes.length = r.address.raw.length + 2 := by
  unfold Route.bytes
  rw [List.length_append, length_toBE]

namespace Contents

variable (c : Contents)

theorem length_bytes : c.bytes.length =
    c.directBytes.length + c.relayBytes.length + seedBytes + 4 := by
  unfold bytes
  simp only [List.length_append, length_toBE, c.seed.2]
  omega

end Contents

variable {flags : ℕ} {c : Contents}

theorem Agrees.length (h : Agrees flags c) : expectedLen flags = 1 + c.bytes.length := by
  have hdirect : c.directBytes.length =
      if flag flags flagDirect then addressLen (flag flags flagDirectV6) + 2 else 0 := by
    rw [h.direct]
    unfold Contents.directBytes
    cases hd : c.direct with
    | none => rfl
    | some r =>
      rw [h.directV6 r hd, addressLen_isV6]
      exact r.length_bytes
  have hrelay : c.relayBytes.length =
      if flag flags flagRelay then addressLen (flag flags flagRelayV6) + 2 + nodeBytes else 0 := by
    rw [h.relay]
    unfold Contents.relayBytes
    cases hr : c.relay with
    | none => rfl
    | some r =>
      rw [h.relayV6 r hr, addressLen_isV6]
      show (r.1.bytes ++ r.2.1).length = _
      rw [List.length_append, r.1.length_bytes, r.2.2]
      rfl
  rw [c.length_bytes, hdirect, hrelay]
  unfold expectedLen
  omega

theorem readDirect_spec (h : Agrees flags c) (hbody : From body 1 (c.directBytes ++ rest)) :
    readDirect W body flags = .ok ((c.direct.map fun r => W.str r.address).getD [],
      (c.direct.map Route.port).getD 0, 1 + c.directBytes.length) := by
  unfold readDirect
  rw [h.direct]
  unfold Contents.directBytes at hbody ⊢
  cases hd : c.direct with
  | none => rfl
  | some r =>
    rw [hd] at hbody
    rw [h.directV6 r hd, addressLen_isV6]
    refine (readEndpoint_spec hbody rfl).1.trans ?_
    show Except.ok _ = Except.ok (W.str r.address, r.port, 1 + r.bytes.length)
    rw [r.length_bytes, Nat.add_assoc]

theorem readRelay_spec (h : Agrees flags c) (hbody : From body pos (c.relayBytes ++ rest)) :
    readRelay W body flags pos = .ok ((c.relay.map fun r => W.str r.1.address).getD [],
      (c.relay.map fun r => r.1.port).getD 0, (c.relay.map fun r => r.2.1).getD [],
      pos + c.relayBytes.length) := by
  unfold readRelay
  rw [h.relay]
  unfold Contents.relayBytes at hbody ⊢
  cases hr : c.relay with
  | none => rfl
  | some r =>
    rw [hr] at hbody
    have hbody' : From body pos (r.1.bytes ++ (r.2.1 ++ rest)) := by
      rw [← List.append_assoc]
      exact hbody
    obtain ⟨hread, hnext⟩ := readEndpoint_spec (W := W) hbody' rfl
    rw [h.relayV6 r hr, addressLen_isV6]
    show (readEndpoint W body pos r.1.address.raw.length).bind _ = _
    rw [hread]
    simp only [Except.bind]
    rw [take_spec hnext r.2.2]
    show Except.ok _ = Except.ok (W.str r.1.address, r.1.port, r.2.1, pos + (r.1.bytes ++ r.2.1).length)
    rw [List.length_append, r.1.length_bytes, r.2.2]
    simp only [Nat.add_assoc]

theorem decodeV2_spec (h : Agrees flags c) (hsome : c.direct.isSome ∨ c.relay.isSome) (first : UInt8) :
    decodeV2 W clock (first :: c.bytes) flags = .ok (c.ticket W clock) := by
  have h1 : From (first :: c.bytes) 1 (c.directBytes ++ (c.relayBytes ++ (c.seed.1 ++ toBE 4 c.minutes))) :=
    ⟨Nat.le_add_left 1 _, rfl⟩
  have h2 := h1.next rfl
  have h3 := h2.next rfl
  have hflags : flag flags (flagDirect ||| flagRelay) = true := by
    rw [flag_or, h.direct, h.relay, Bool.or_eq_true]
    exact hsome
  have hlength : (first :: c.bytes).length = expectedLen flags := by
    rw [h.length, List.length_cons, Nat.add_comm]
  unfold decodeV2
  rw [hflags, if_neg (by decide), if_neg (not_not.mpr hlength), readDirect_spec h h1]
  simp only [Except.bind]
  rw [readRelay_spec h h2]
  dsimp only
  rw [readEnd_spec h3]
  rfl

theorem addressLen_cases (v6 : Bool) : addressLen v6 = 4 ∨ addressLen v6 = 16 := by cases v6 <;> decide

theorem isV6_of_length {a : Address} {v6 : Bool} (h : a.raw.length = addressLen v6) : v6 = a.isV6 := by
  unfold Address.isV6
  rw [h]
  cases v6 <;> rfl

theorem readDirect_cases (W : World) (body : Bytes) (flags : ℕ) :
    (∃ message, readDirect W body flags = .error (.ticketError message)) ∨
      ∃ direct : Option Route, flag flags flagDirect = direct.isSome ∧
        (∀ r, direct = some r → flag flags flagDirectV6 = r.address.isV6) ∧
        body.drop 1 = (direct.map Route.bytes).getD [] ++
          body.drop (1 + ((direct.map Route.bytes).getD []).length) ∧
        readDirect W body flags = .ok ((direct.map fun r => W.str r.address).getD [],
          (direct.map Route.port).getD 0, 1 + ((direct.map Route.bytes).getD []).length) := by
  unfold readDirect
  cases hflag : flag flags flagDirect with
  | false => exact Or.inr ⟨none, rfl, fun r h => (Option.some_ne_none r h.symm).elim, rfl, rfl⟩
  | true =>
    rw [if_pos rfl]
    rcases readEndpoint_cases W body 1 (addressLen_cases (flag flags flagDirectV6)) with
      h | ⟨r, hlen, hdrop, h⟩
    · exact Or.inl h
    · have hpos : 1 + addressLen (flag flags flagDirectV6) + 2 = 1 + r.bytes.length := by
        rw [r.length_bytes, hlen, Nat.add_assoc]
      rw [hpos] at hdrop h
      refine Or.inr ⟨some r, rfl, ?_, hdrop, h⟩
      intro r' hr'
      cases hr'
      exact isV6_of_length hlen

theorem readRelay_cases (W : World) (body : Bytes) (flags pos : ℕ) :
    (∃ message, readRelay W body flags pos = .error (.ticketError message)) ∨
      ∃ relay : Option (Route × { node : Bytes // node.length = nodeBytes }),
        flag flags flagRelay = relay.isSome ∧
        (∀ r, relay = some r → flag flags flagRelayV6 = r.1.address.isV6) ∧
        body.drop pos = (relay.map fun r => r.1.bytes ++ r.2.1).getD [] ++
          body.drop (pos + ((relay.map fun r => r.1.bytes ++ r.2.1).getD []).length) ∧
        readRelay W body flags pos = .ok ((relay.map fun r => W.str r.1.address).getD [],
          (relay.map fun r => r.1.port).getD 0, (relay.map fun r => r.2.1).getD [],
          pos + ((relay.map fun r => r.1.bytes ++ r.2.1).getD []).length) := by
  unfold readRelay
  cases hflag : flag flags flagRelay with
  | false => exact Or.inr ⟨none, rfl, fun r h => (Option.some_ne_none r h.symm).elim, rfl, rfl⟩
  | true =>
    rw [if_pos rfl]
    rcases readEndpoint_cases W body pos (addressLen_cases (flag flags flagRelayV6)) with
      ⟨message, h⟩ | ⟨r, hlen, hdrop, h⟩
    · rw [h]
      exact Or.inl ⟨message, rfl⟩
    · rw [h]
      simp only [Except.bind]
      rcases take_cases body (pos + addressLen (flag flags flagRelayV6) + 2) nodeBytes with
        h' | ⟨node, hnode, hdrop', h'⟩
      · rw [h']
        exact Or.inl ⟨_, rfl⟩
      · rw [h']
        have hpos : pos + addressLen (flag flags flagRelayV6) + 2 + nodeBytes =
            pos + (r.bytes ++ node).length := by
          rw [List.length_append, r.length_bytes, hlen, hnode]
          omega
        rw [hpos] at hdrop' ⊢
        refine Or.inr ⟨some (r, ⟨node, hnode⟩), rfl, ?_, ?_, rfl⟩
        · intro r' hr'
          cases hr'
          exact isV6_of_length hlen
        · show _ = (r.bytes ++ node) ++ body.drop (pos + (r.bytes ++ node).length)
          rw [hdrop, hdrop', List.append_assoc]

/-- **What is read as version 2 is such a body**; else `TicketError` is raised. -/
theorem decodeV2_cases (W : World) (clock : ℚ) (first : UInt8) (tail : Bytes) (flags : ℕ) :
    (∃ message, decodeV2 W clock (first :: tail) flags = .error (.ticketError message)) ∨
      ∃ c : Contents, Agrees flags c ∧ (c.direct.isSome ∨ c.relay.isSome) ∧ tail = c.bytes ∧
        decodeV2 W clock (first :: tail) flags = .ok (c.ticket W clock) := by
  unfold decodeV2
  cases hflags : flag flags (flagDirect ||| flagRelay) with
  | false => exact Or.inl ⟨_, rfl⟩
  | true =>
    rw [if_neg (by decide)]
    by_cases hlength : (first :: tail).length ≠ expectedLen flags
    · rw [if_pos hlength]
      exact Or.inl ⟨_, rfl⟩
    · rw [if_neg hlength]
      rw [not_not] at hlength
      rcases readDirect_cases W (first :: tail) flags with ⟨message, h⟩ | ⟨direct, hd, hd6, hdrop1, h⟩
      · rw [h]
        exact Or.inl ⟨message, rfl⟩
      rw [h]
      simp only [Except.bind]
      rcases readRelay_cases W (first :: tail) flags
        (1 + ((direct.map Route.bytes).getD []).length) with ⟨message, h⟩ | ⟨relay, hr, hr6, hdrop2, h⟩
      · rw [h]
        exact Or.inl ⟨message, rfl⟩
      rw [h]
      dsimp only
      rcases readEnd_cases (first :: tail) (1 + ((direct.map Route.bytes).getD []).length +
        ((relay.map fun r => r.1.bytes ++ r.2.1).getD []).length) with
        ⟨message, h⟩ | ⟨seed, minutes, hlt, hdrop3, h⟩
      · rw [h]
        exact Or.inl ⟨message, rfl⟩
      rw [h]
      have hagrees : Agrees flags ⟨direct, relay, seed, minutes, hlt⟩ := ⟨hd, hd6, hr, hr6⟩
      -- the length leaves nothing behind the minutes
      have hall : tail = (⟨direct, relay, seed, minutes, hlt⟩ : Contents).bytes := by
        have htail : tail = (first :: tail).drop 1 := rfl
        rw [hdrop1, hdrop2, hdrop3] at htail
        have hlen := hagrees.length
        rw [← hlength, List.length_cons, Nat.add_comm, Nat.add_left_cancel_iff] at hlen
        rw [htail] at hlen ⊢
        have hnil : (first :: tail).drop (1 + ((direct.map Route.bytes).getD []).length +
            ((relay.map fun r => r.1.bytes ++ r.2.1).getD []).length + seedBytes + 4) = [] := by
          rw [Contents.length_bytes] at hlen
          unfold Contents.directBytes Contents.relayBytes at hlen
          simp only [List.length_append, length_toBE, seed.2] at hlen
          exact List.length_eq_zero_iff.mp (by omega)
        rw [hnil, List.append_nil]
        rfl
      refine Or.inr ⟨_, hagrees, ?_, hall, rfl⟩
      rw [flag_or, hd, hr, Bool.or_eq_true] at hflags
      exact hflags

/-! ### Version 1 -/

/-- The contents of a ticket of version 1: a route, and no relay. -/
def legacy (r : Route) (seed : { seed : Bytes // seed.length = seedBytes }) (minutes : ℕ)
    (hlt : minutes < 256 ^ 4) : Contents := ⟨some r, none, seed, minutes, hlt⟩

theorem lengths_cases {family : ℕ} (h : lengths family = some size) : size = 4 ∨ size = 16 := by
  unfold lengths at h
  split_ifs at h
  · exact Or.inl (Option.some.inj h).symm
  · exact Or.inr (Option.some.inj h).symm

/-- **What is read as version 1 is a body with one route**; else `TicketError` is raised. -/
theorem decodeV1_cases (W : World) (clock : ℚ) (first : UInt8) (tail : Bytes) (family : ℕ) :
    (∃ message, decodeV1 W clock (first :: tail) family = .error (.ticketError message)) ∨
      ∃ (r : Route) (c : Contents), c.direct = some r ∧ c.relay = none ∧
        lengths family = some r.address.raw.length ∧ tail = c.bytes ∧
        decodeV1 W clock (first :: tail) family = .ok (c.ticket W clock) := by
  unfold decodeV1
  cases hsize : lengths family with
  | none => exact Or.inl ⟨_, rfl⟩
  | some size =>
    dsimp only
    by_cases hlength : (first :: tail).length ≠ 1 + size + 2 + seedBytes + 4
    · rw [if_pos hlength]
      exact Or.inl ⟨_, rfl⟩
    · rw [if_neg hlength]
      rw [not_not] at hlength
      rcases readEndpoint_cases W (first :: tail) 1 (lengths_cases hsize) with
        ⟨message, h⟩ | ⟨r, hlen, hdrop, h⟩
      · rw [h]
        exact Or.inl ⟨message, rfl⟩
      rw [h]
      simp only [Except.bind]
      rcases readEnd_cases (first :: tail) (1 + size + 2) with ⟨message, h⟩ | ⟨seed, minutes, hlt, hdrop', h⟩
      · rw [h]
        exact Or.inl ⟨message, rfl⟩
      rw [h]
      refine Or.inr ⟨r, legacy r seed minutes hlt, rfl, rfl, by rw [hlen], ?_, rfl⟩
      have htail : tail = (first :: tail).drop 1 := rfl
      have hnil : (first :: tail).drop (1 + size + 2 + seedBytes + 4) = [] := by
        rw [← hlength, List.drop_length]
      rw [hdrop, hdrop', hnil, List.append_nil] at htail
      exact htail

/-! ### Cleaning -/

/-- **`text'` is `text` with letters in any case, and spaces and hyphens inserted.** -/
inductive Variant : Text → Text → Prop
  | nil : Variant [] []
  | letter {c c' : ℕ} {text text' : Text} (h : asciiUpper c' = asciiUpper c) (ht : Variant text text') :
      Variant (c :: text) (c' :: text')
  | inserted {c : ℕ} {text text' : Text} (h : c = 0x20 ∨ c = 0x2D) (ht : Variant text text') :
      Variant text (c :: text')

theorem Variant.refl : ∀ text : Text, Variant text text
  | [] => .nil
  | _ :: text => .letter rfl (Variant.refl text)

theorem clean_cons (W : World) (c : ℕ) (text : Text) : clean W (c :: text) =
    (if W.isSpace c ∨ c = 0x2D then [] else W.upper c) ++ clean W text := by
  unfold clean
  by_cases hspace : W.isSpace c = true
  · rw [if_pos (Or.inl hspace), List.filter_cons_of_neg (by rw [hspace]; decide), List.nil_append]
  · have hkeep : (!W.isSpace c) = true := by rw [Bool.not_eq_true] at hspace; rw [hspace]; rfl
    rw [List.filter_cons_of_pos (by exact hkeep)]
    by_cases hyphen : c = 0x2D
    · rw [if_pos (Or.inr hyphen), List.filter_cons_of_neg (by simpa using hyphen), List.nil_append]
    · rw [if_neg (not_or.mpr ⟨hspace, hyphen⟩), List.filter_cons_of_pos (by simpa using hyphen),
        List.flatMap_cons]

theorem clean_letter (W : World) {c c' : ℕ} (hc : Base32.IsDigit c) (h : asciiUpper c' = asciiUpper c) :
    ¬ (W.isSpace c' ∨ c' = 0x2D) ∧ W.upper c' = [c] := by
  have hself : asciiUpper c = c := by
    unfold asciiUpper
    unfold Base32.IsDigit at hc
    rw [if_neg (by omega)]
  rw [hself] at h
  have hrange : c' < 0x80 ∧ 0x32 ≤ c' := by
    unfold asciiUpper at h
    unfold Base32.IsDigit at hc
    split_ifs at h <;> omega
  refine ⟨?_, by rw [W.upper_ascii c' hrange.1, h]⟩
  rintro (hspace | hyphen)
  · rw [W.space_ascii c' hrange.1] at hspace
    unfold Chars.asciiTables at hspace
    simp only [decide_eq_true_eq] at hspace
    omega
  · omega

variable {text : Text}

theorem clean_variant (W : World) {text' : Text} (h : Variant text text')
    (hdigits : ∀ c ∈ text, Base32.IsDigit c) : clean W text' = text := by
  induction h with
  | nil => rfl
  | letter hc _ ih =>
    obtain ⟨hkeep, hupper⟩ := clean_letter W (hdigits _ List.mem_cons_self) hc
    rw [clean_cons, if_neg hkeep, hupper, ih fun c hc => hdigits c (List.mem_cons_of_mem _ hc)]
    rfl
  | @inserted c _ _ hc _ ih =>
    have hgone : W.isSpace c = true ∨ c = 0x2D := hc.imp_left fun hspace => by
      rw [hspace, W.space_ascii 0x20 (by decide)]
      decide
    rw [clean_cons, if_pos hgone, ih hdigits, List.nil_append]

/-! ### Whole tickets -/

theorem length_checksum (W : World) (body : Bytes) : (checksum W body).length = checkBytes := by
  unfold checksum checkBytes
  rw [List.length_take, W.digest]
  omega

theorem decode_sealed {first : UInt8} {tail : Bytes}
    (hclean : clean W text = Base32.encode ((first :: tail) ++ checksum W (first :: tail)))
    (hlow : 18 ≤ tail.length) (hhigh : tail.length ≤ 77) : decode W clock text =
      if first.toNat >>> 4 = legacyVersion then
        decodeV1 W clock (first :: tail) (first.toNat &&& 0x0F)
      else if first.toNat >>> 4 ≠ version then
        .error (.ticketError s!"ticket version {first.toNat >>> 4} is not supported")
      else decodeV2 W clock (first :: tail) (first.toNat &&& 0x0F) := by
  have hcheck := length_checksum W (first :: tail)
  have hbytes : checkBytes = 2 ∧ seedBytes = 8 ∧ maxText = 128 := ⟨rfl, rfl, rfl⟩
  have hraw : ((first :: tail) ++ checksum W (first :: tail)).length = tail.length + 1 + checkBytes := by
    rw [List.length_append, hcheck, List.length_cons]
  have hlen := Base32.length_encode ((first :: tail) ++ checksum W (first :: tail))
  have hne : Base32.encode ((first :: tail) ++ checksum W (first :: tail)) ≠ [] := by
    intro hnil
    rw [hnil, List.length_nil] at hlen
    omega
  have hbody : ((first :: tail) ++ checksum W (first :: tail)).length - checkBytes = (first :: tail).length := by
    rw [hraw, List.length_cons]
    omega
  unfold decode
  dsimp only
  rw [hclean, if_neg hne, if_neg (by omega), Base32.decode_encode]
  dsimp only
  rw [if_neg (by omega), hbody, List.drop_left, List.take_left, if_neg (not_not.mpr rfl)]

/-- The flags of a route: that there is one, and its family. -/
def bitsOf (set v6 : ℕ) : Option Bool → ℕ
  | none => 0
  | some isV6 => set ||| (if isV6 then v6 else 0)

/-- The flags that `encode` writes. -/
def flagsOf (c : Contents) : ℕ :=
  bitsOf flagDirect flagDirectV6 (c.direct.map fun r => r.address.isV6) |||
    bitsOf flagRelay flagRelayV6 (c.relay.map fun r => r.1.address.isV6)

theorem bits_agree : ∀ d r : Option Bool,
    let flags := bitsOf flagDirect flagDirectV6 d ||| bitsOf flagRelay flagRelayV6 r
    flag flags flagDirect = d.isSome ∧ (∀ v, d = some v → flag flags flagDirectV6 = v) ∧
      flag flags flagRelay = r.isSome ∧ (∀ v, r = some v → flag flags flagRelayV6 = v) ∧ flags < 16 ∧
      (d.isSome ∨ r.isSome → flags ≠ 0) := by
  decide

theorem flagsOf_agrees (c : Contents) : Agrees (flagsOf c) c := by
  obtain ⟨h1, h2, h3, h4, -, -⟩ := bits_agree (c.direct.map fun r => r.address.isV6)
    (c.relay.map fun r => r.1.address.isV6)
  rw [Option.isSome_map] at h1 h3
  exact ⟨h1, fun r hr => h2 _ (by rw [hr]; rfl), h3, fun r hr => h4 _ (by rw [hr]; rfl)⟩

theorem first_byte : ∀ flags < 16, ∃ first, toBE 1 (version <<< 4 ||| flags) = [first] ∧
    first.toNat >>> 4 = version ∧ first.toNat &&& 0x0F = flags := by
  have hall : ∀ flags < 16, (UInt8.ofNat ((version <<< 4 ||| flags) % 256)).toNat >>> 4 = version ∧
      (UInt8.ofNat ((version <<< 4 ||| flags) % 256)).toNat &&& 0x0F = flags := by decide
  intro flags hlt
  exact ⟨UInt8.ofNat ((version <<< 4 ||| flags) % 256), rfl, hall flags hlt⟩

def written (W : World) (c : Contents) : Bytes :=
  let body := toBE 1 (version <<< 4 ||| flagsOf c) ++ c.bytes
  body ++ checksum W body

theorem Contents.length_bounds (c : Contents) (hsome : c.direct.isSome ∨ c.relay.isSome) :
    18 ≤ c.bytes.length ∧ c.bytes.length ≤ 68 := by
  have hlen := c.length_bytes
  have hbytes : seedBytes = 8 ∧ nodeBytes = 20 := ⟨rfl, rfl⟩
  have hdirect : c.directBytes.length = 0 ∧ c.direct.isSome = false ∨
      6 ≤ c.directBytes.length ∧ c.directBytes.length ≤ 18 := by
    unfold directBytes
    cases c.direct with
    | none => exact Or.inl ⟨rfl, rfl⟩
    | some r =>
      have := r.length_bytes
      have := r.address.len
      show _ ∨ 6 ≤ r.bytes.length ∧ r.bytes.length ≤ 18
      omega
  have hrelay : c.relayBytes.length = 0 ∧ c.relay.isSome = false ∨
      26 ≤ c.relayBytes.length ∧ c.relayBytes.length ≤ 38 := by
    unfold relayBytes
    cases c.relay with
    | none => exact Or.inl ⟨rfl, rfl⟩
    | some r =>
      have := r.1.length_bytes
      have := r.1.address.len
      have := r.2.2
      show _ ∨ 26 ≤ (r.1.bytes ++ r.2.1).length ∧ (r.1.bytes ++ r.2.1).length ≤ 38
      rw [List.length_append]
      omega
  rcases hdirect with ⟨h0, hnone⟩ | ⟨hd, hd'⟩
  · rcases hrelay with ⟨-, hnone'⟩ | ⟨hr, hr'⟩
    · rw [hnone, hnone'] at hsome
      simp at hsome
    · omega
  · rcases hrelay with ⟨h0, -⟩ | ⟨hr, hr'⟩ <;> omega

/-- **A written ticket is read**, in any case and with any spaces and hyphens. -/
theorem decode_written (hsome : c.direct.isSome ∨ c.relay.isSome)
    (h : Variant (Base32.encode (written W c)) text) : decode W clock text = .ok (c.ticket W clock) := by
  have hflags : flagsOf c < 16 := (bits_agree _ _).2.2.2.2.1
  obtain ⟨first, hfirst, hversion, hlow⟩ := first_byte (flagsOf c) hflags
  obtain ⟨hmin, hmax⟩ := c.length_bounds hsome
  have hclean := clean_variant W h fun c hc => Base32.isDigit_of_mem_encode hc
  unfold written at hclean
  rw [hfirst] at hclean
  have hclean' : clean W text = Base32.encode ((first :: c.bytes) ++ checksum W (first :: c.bytes)) := hclean
  rw [decode_sealed hclean' hmin (by omega), hversion, hlow, if_neg (by decide), if_neg (not_not.mpr rfl)]
  exact decodeV2_spec (flagsOf_agrees c) hsome first

theorem length_written (W : World) (hsome : c.direct.isSome ∨ c.relay.isSome) :
    (Base32.encode (written W c)).length ≤ maxText := by
  obtain ⟨-, hmax⟩ := c.length_bounds hsome
  have hbytes : checkBytes = 2 ∧ maxText = 128 := ⟨rfl, rfl⟩
  rw [Base32.length_encode]
  unfold written
  simp only [List.length_append, length_toBE, length_checksum]
  omega

/-! ### Any text -/

/-- **The text is a ticket that says `c`**: a body of version 2 whose flags agree with it, or one of
version 1 with its only route, sealed with the checksum. -/
def Spells (W : World) (text : Text) (c : Contents) : Prop :=
  ∃ first : UInt8, Base32.decode (clean W text) = some ((first :: c.bytes) ++ checksum W (first :: c.bytes)) ∧
    (first.toNat >>> 4 = version ∧ Agrees (first.toNat &&& 0x0F) c ∧ (c.direct.isSome ∨ c.relay.isSome) ∨
      first.toNat >>> 4 = legacyVersion ∧ c.relay = none ∧
        ∃ r, c.direct = some r ∧ lengths (first.toNat &&& 0x0F) = some r.address.raw.length)

theorem decode_cases (W : World) (clock : ℚ) (text : Text) :
    (∃ message, decode W clock text = .error (.ticketError message)) ∨
      ∃ c, Spells W text c ∧ decode W clock text = .ok (c.ticket W clock) := by
  unfold decode
  dsimp only
  by_cases hempty : clean W text = []
  · rw [if_pos hempty]
    exact Or.inl ⟨_, rfl⟩
  rw [if_neg hempty]
  by_cases hlong : maxText < (clean W text).length
  · rw [if_pos hlong]
    exact Or.inl ⟨_, rfl⟩
  rw [if_neg hlong]
  cases hraw : Base32.decode (clean W text) with
  | none => exact Or.inl ⟨_, rfl⟩
  | some raw =>
    dsimp only
    by_cases hshort : raw.length < 1 + 4 + 2 + seedBytes + 4 + checkBytes
    · rw [if_pos hshort]
      exact Or.inl ⟨_, rfl⟩
    rw [if_neg hshort]
    by_cases hcheck : raw.drop (raw.length - checkBytes) ≠ checksum W (raw.take (raw.length - checkBytes))
    · rw [if_pos hcheck]
      exact Or.inl ⟨_, rfl⟩
    rw [if_neg hcheck]
    rw [not_not] at hcheck
    have hsplit := List.take_append_drop (raw.length - checkBytes) raw
    rw [hcheck] at hsplit
    cases hbody : raw.take (raw.length - checkBytes) with
    | nil =>
      have hlen := congrArg List.length hbody
      have hbytes : checkBytes = 2 := rfl
      rw [List.length_take, List.length_nil] at hlen
      omega
    | cons first tail =>
      rw [hbody] at hsplit
      dsimp only
      by_cases hlegacy : first.toNat >>> 4 = legacyVersion
      · rw [if_pos hlegacy]
        refine (decodeV1_cases W clock first tail _).imp_right ?_
        rintro ⟨r, c, hd, hr, hfamily, rfl, hread⟩
        exact ⟨c, ⟨first, by rw [hraw, hsplit], Or.inr ⟨hlegacy, hr, r, hd, hfamily⟩⟩, hread⟩
      rw [if_neg hlegacy]
      by_cases hversion : first.toNat >>> 4 ≠ version
      · rw [if_pos hversion]
        exact Or.inl ⟨_, rfl⟩
      rw [if_neg hversion]
      rw [not_not] at hversion
      refine (decodeV2_cases W clock first tail _).imp_right ?_
      rintro ⟨c, hagrees, hsome, rfl, hread⟩
      exact ⟨c, ⟨first, by rw [hraw, hsplit], Or.inl ⟨hversion, hagrees, hsome⟩⟩, hread⟩

/-! ### What `encode` writes -/

variable {host : Text} {port : ℤ} {relay : Option (Text × ℤ)} {nodeId seed : Bytes} {expiresAt : ℚ}

/-- The arguments ask for a ticket with these contents. -/
structure Asks (W : World) (host : Text) (port : ℤ) (relay : Option (Text × ℤ)) (nodeId : Bytes)
    (c : Contents) : Prop where
  direct : host = [] ∧ c.direct = none ∨
    host ≠ [] ∧ ∃ r, c.direct = some r ∧ W.parse host = some r.address ∧ port = r.port
  relay : relay = none ∧ c.relay = none ∨
    ∃ q r, relay = some q ∧ c.relay = some r ∧ W.parse q.1 = some r.1.address ∧ q.2 = r.1.port ∧
      nodeId = r.2.1

theorem endpoint_spec {r : Route} (hparse : W.parse host = some r.address) (hport : port = r.port) :
    endpoint W host port = .ok (r.bytes, r.address.isV6) := by
  unfold endpoint
  rw [hparse]
  dsimp only
  have hrange := r.inRange
  rw [if_pos (by omega), hport, Int.toNat_natCast]
  rfl

theorem Asks.encode (h : Asks W host port relay nodeId c)
    (hsome : c.direct.isSome ∨ c.relay.isSome) (hminutes : c.minutes = minutesOf expiresAt) :
    encode W host port c.seed.1 expiresAt relay nodeId = .ok (Base32.encode (written W c)) := by
  have hdirect : directPart W host port = .ok
      (bitsOf flagDirect flagDirectV6 (c.direct.map fun r => r.address.isV6), c.directBytes) := by
    unfold directPart Contents.directBytes
    rcases h.direct with ⟨hhost, hd⟩ | ⟨hhost, r, hd, hparse, hport⟩
    · rw [if_pos hhost, hd]
      rfl
    · rw [if_neg hhost, hd, endpoint_spec hparse hport]
      rfl
  have hrelay : relayPart W relay nodeId = .ok
      (bitsOf flagRelay flagRelayV6 (c.relay.map fun r => r.1.address.isV6), c.relayBytes) := by
    unfold relayPart Contents.relayBytes
    rcases h.relay with ⟨hnone, hr⟩ | ⟨q, r, hq, hr, hparse, hport, hnode⟩
    · rw [hnone, hr]
      rfl
    · rw [hq, hr]
      dsimp only
      rw [hnode, if_neg (not_not.mpr r.2.2), endpoint_spec hparse hport]
      rfl
  have hflags : bitsOf flagDirect flagDirectV6 (c.direct.map fun r => r.address.isV6) |||
      bitsOf flagRelay flagRelayV6 (c.relay.map fun r => r.1.address.isV6) ≠ 0 := by
    refine (bits_agree _ _).2.2.2.2.2 ?_
    rw [Option.isSome_map, Option.isSome_map]
    exact hsome
  unfold Codec.encode
  rw [if_neg (not_not.mpr c.seed.2), hdirect, hrelay]
  simp only [Except.bind]
  rw [if_neg hflags, ← hminutes, if_neg (not_le.mpr c.packs)]
  unfold written Contents.bytes flagsOf
  simp only [List.append_assoc]

theorem encode_begins (h : encode W host port seed expiresAt relay nodeId = .ok text) :
    ∃ first tail, text = Base32.encode (first :: tail) ∧ first.toNat >>> 4 = version := by
  unfold Codec.encode at h
  by_cases hseed : seed.length ≠ seedBytes
  · rw [if_pos hseed] at h
    cases h
  rw [if_neg hseed] at h
  cases hdirect : directPart W host port with
  | error raised => rw [hdirect] at h; cases h
  | ok direct =>
    rw [hdirect] at h
    simp only [Except.bind] at h
    cases hrelay : relayPart W relay nodeId with
    | error raised => rw [hrelay] at h; cases h
    | ok relayed =>
      rw [hrelay] at h
      dsimp only at h
      split_ifs at h
      have hd : ∃ d, direct.1 = bitsOf flagDirect flagDirectV6 d := by
        unfold directPart at hdirect
        split_ifs at hdirect
        · exact ⟨none, by rw [← Except.ok.inj hdirect]; rfl⟩
        · cases he : endpoint W host port with
          | error raised => rw [he] at hdirect; cases hdirect
          | ok packed =>
            rw [he] at hdirect
            exact ⟨some packed.2, by rw [← Except.ok.inj hdirect]; rfl⟩
      have hr : ∃ r, relayed.1 = bitsOf flagRelay flagRelayV6 r := by
        unfold relayPart at hrelay
        cases relay with
        | none => exact ⟨none, by rw [← Except.ok.inj hrelay]; rfl⟩
        | some q =>
          dsimp only at hrelay
          split_ifs at hrelay
          cases he : endpoint W q.1 q.2 with
          | error raised => rw [he] at hrelay; cases hrelay
          | ok packed =>
            rw [he] at hrelay
            exact ⟨some packed.2, by rw [← Except.ok.inj hrelay]; rfl⟩
      obtain ⟨d, hd⟩ := hd
      obtain ⟨r, hr⟩ := hr
      rw [hd, hr] at h
      obtain ⟨first, hfirst, hversion, -⟩ := first_byte _ (bits_agree d r).2.2.2.2.1
      rw [hfirst] at h
      exact ⟨first, _, (Except.ok.inj h).symm, hversion⟩

/-! ### The round trip -/

/-- The ticket carries what `encode` was given. -/
structure Carries (W : World) (host : Text) (port : ℤ) (relay : Option (Text × ℤ)) (nodeId seed : Bytes)
    (expiresAt : ℚ) (t : Ticket) : Prop where
  direct : host ≠ [] → W.parse t.host = W.parse host ∧ (t.port : ℤ) = port
  noDirect : host = [] → t.host = [] ∧ t.port = 0
  relayed : ∀ r, relay = some r →
    W.parse t.relayHost = W.parse r.1 ∧ (t.relayPort : ℤ) = r.2 ∧ t.node = toHex nodeId
  noRelay : relay = none → t.relayHost = [] ∧ t.relayPort = 0 ∧ t.node = []
  code : t.code = codeFromSeed seed
  expiry : (t.expiresAt : ℤ) = max 0 ⌊expiresAt / 60⌋ * 60

theorem Asks.carries (h : Asks W host port relay nodeId c) (hminutes : c.minutes = minutesOf expiresAt) :
    Carries W host port relay nodeId c.seed.1 expiresAt (c.ticket W clock) := by
  refine ⟨fun hhost => ?_, fun hhost => ?_, fun q hq => ?_, fun hnone => ?_, rfl, ?_⟩
  · rcases h.direct with ⟨hnil, -⟩ | ⟨-, r, hd, hparse, hport⟩
    · exact absurd hnil hhost
    · unfold Contents.ticket
      rw [hd, hparse, hport]
      exact ⟨W.parse_str _, rfl⟩
  · rcases h.direct with ⟨-, hd⟩ | ⟨hne, -⟩
    · unfold Contents.ticket
      rw [hd]
      exact ⟨rfl, rfl⟩
    · exact absurd hhost hne
  · rcases h.relay with ⟨hnone, -⟩ | ⟨q', r, hq', hr, hparse, hport, hnode⟩
    · rw [hnone] at hq
      cases hq
    · obtain rfl : q' = q := Option.mem_unique hq' hq
      unfold Contents.ticket
      rw [hr, hparse, hport, hnode]
      refine ⟨W.parse_str _, rfl, ?_⟩
      show (if r.2.1 = [] then [] else toHex r.2.1) = toHex r.2.1
      split_ifs with hnil
      · rw [hnil]
        rfl
      · rfl
  · rcases h.relay with ⟨-, hr⟩ | ⟨q, r, hq, -⟩
    · unfold Contents.ticket
      rw [hr]
      exact ⟨rfl, rfl, rfl⟩
    · rw [hnone] at hq
      cases hq
  · show ((c.minutes * 60 : ℕ) : ℤ) = _
    rw [hminutes]
    unfold minutesOf
    push_cast
    rw [Int.toNat_of_nonneg (le_max_left _ _)]

/-- An endpoint that can be written: a numeric address, and a port in range. -/
def Usable (W : World) (host : Text) (port : ℤ) : Prop :=
  (∃ a, W.parse host = some a) ∧ 1 ≤ port ∧ port ≤ 65535

theorem Usable.route (h : Usable W host port) :
    ∃ r : Route, W.parse host = some r.address ∧ port = r.port := by
  obtain ⟨⟨a, ha⟩, hlow, hhigh⟩ := h
  refine ⟨⟨a, port.toNat, by omega⟩, ha, ?_⟩
  show port = (port.toNat : ℤ)
  omega

theorem exists_asks (hdirect : host ≠ [] → Usable W host port)
    (hrelay : ∀ r, relay = some r → Usable W r.1 r.2 ∧ nodeId.length = nodeBytes)
    (hany : host ≠ [] ∨ relay ≠ none) (hseed : seed.length = seedBytes)
    (hexpiry : expiresAt < 60 * 2 ^ 32) :
    ∃ c, Asks W host port relay nodeId c ∧ (c.direct.isSome ∨ c.relay.isSome) ∧ c.seed.1 = seed ∧
      c.minutes = minutesOf expiresAt := by
  have hpacks : minutesOf expiresAt < 256 ^ 4 := by
    have hfloor : ⌊expiresAt / 60⌋ < 2 ^ 32 := by
      rw [Int.floor_lt]
      push_cast
      rw [div_lt_iff₀ (by norm_num)]
      linarith
    unfold minutesOf
    omega
  have hd : ∃ d : Option Route, (host = [] ∧ d = none ∨
      host ≠ [] ∧ ∃ r, d = some r ∧ W.parse host = some r.address ∧ port = r.port) := by
    by_cases hhost : host = []
    · exact ⟨none, Or.inl ⟨hhost, rfl⟩⟩
    · obtain ⟨r, hparse, hport⟩ := (hdirect hhost).route
      exact ⟨some r, Or.inr ⟨hhost, r, rfl, hparse, hport⟩⟩
  have hr : ∃ d : Option (Route × { node : Bytes // node.length = nodeBytes }), (relay = none ∧ d = none ∨
      ∃ q r, relay = some q ∧ d = some r ∧ W.parse q.1 = some r.1.address ∧ q.2 = r.1.port ∧
        nodeId = r.2.1) := by
    cases hrel : relay with
    | none => exact ⟨none, Or.inl ⟨rfl, rfl⟩⟩
    | some q =>
      obtain ⟨husable, hnode⟩ := hrelay q hrel
      obtain ⟨r, hparse, hport⟩ := husable.route
      exact ⟨some (r, ⟨nodeId, hnode⟩), Or.inr ⟨q, _, rfl, rfl, hparse, hport, rfl⟩⟩
  obtain ⟨d, hd⟩ := hd
  obtain ⟨d', hr⟩ := hr
  refine ⟨⟨d, d', ⟨seed, hseed⟩, minutesOf expiresAt, hpacks⟩, ⟨hd, hr⟩, ?_, rfl, rfl⟩
  rcases hany with hhost | hrel
  · rcases hd with ⟨hnil, -⟩ | ⟨-, r, rfl, -⟩
    · exact absurd hnil hhost
    · exact Or.inl rfl
  · rcases hr with ⟨hnone, -⟩ | ⟨q, r, -, rfl, -⟩
    · exact absurd hnone hrel
    · exact Or.inr rfl

/-- **A join ticket reads back.** For a direct endpoint or a relay with a node id or both, each with a
numeric address and a port in range, a seed and an expiry that packs, `encode` answers a string of at most
`maxText` characters; and from it, in any case and with any spaces and hyphens, `decode` reads the same
endpoints, node id, code and expiry in minutes. Of every other text, `decode` reads a ticket of version 2
or 1 that it spells out under its checksum, or raises `TicketError`: it raises nothing else. -/
theorem ticket_reads_back (W : World) :
    (∀ host port relay nodeId seed expiresAt, (host ≠ [] → Usable W host port) →
      (∀ r, relay = some r → Usable W r.1 r.2 ∧ nodeId.length = nodeBytes) →
      (host ≠ [] ∨ relay ≠ none) → seed.length = seedBytes → expiresAt < 60 * 2 ^ 32 →
      ∃ text, encode W host port seed expiresAt relay nodeId = .ok text ∧ text.length ≤ maxText ∧
        ∀ text' clock, Variant text text' →
          ∃ t, decode W clock text' = .ok t ∧ Carries W host port relay nodeId seed expiresAt t) ∧
    ∀ clock text, (∃ message, decode W clock text = .error (.ticketError message)) ∨
      ∃ c, Spells W text c ∧ decode W clock text = .ok (c.ticket W clock) := by
  refine ⟨?_, decode_cases W⟩
  intro host port relay nodeId seed expiresAt hdirect hrelay hany hseed hexpiry
  obtain ⟨c, hasks, hsome, rfl, hminutes⟩ := exists_asks hdirect hrelay hany hseed hexpiry
  refine ⟨_, hasks.encode hsome hminutes, length_written W hsome, fun text' clock hvariant => ?_⟩
  exact ⟨_, decode_written hsome hvariant, hasks.carries hminutes⟩

/-! ### One address -/

/-- `203.0.113.7` -/
def sample : Address := ⟨[203, 0, 113, 7], by decide⟩

theorem length_turned (data : Bytes) : ((data.reverse ++ List.replicate 32 0).take 32).length = 32 := by simp

/-- Addresses read and written as hexadecimal digits, but for one, which is read and written as it is. -/
def sampleWorld : World where
  sha256 data := (data.reverse ++ List.replicate 32 0).take 32
  isSpace := Chars.asciiTables.isSpace
  upper c := [asciiUpper c]
  parse text :=
    if text = ascii "203.0.113.7" then some sample
    else
      match fromHex text with
      | none => none
      | some raw => if h : raw.length = 4 ∨ raw.length = 16 then some ⟨raw, h⟩ else none
  str a := if a = sample then ascii "203.0.113.7" else toHex a.raw
  digest := length_turned
  space_ascii _ _ := rfl
  upper_ascii _ _ := rfl
  parse_nil := by decide
  parse_str a := by
    by_cases ha : a = sample
    · rw [if_pos ha, if_pos rfl, ha]
    · have hhex : toHex a.raw ≠ ascii "203.0.113.7" := by
        intro heq
        have hread := fromHex_toHex a.raw
        have hbad : fromHex (ascii "203.0.113.7") = none := by decide
        rw [heq, hbad] at hread
        cases hread
      rw [if_neg ha, if_neg hhex, fromHex_toHex]
      dsimp only
      rw [dif_pos a.len]

def oldTicket : Text :=
  let body : Bytes := [0x14, 203, 0, 113, 7, 0x23, 0x28, 1, 2, 3, 4, 5, 6, 7, 8, 0, 0, 0, 10]
  Base32.encode (body ++ checksum sampleWorld body)

/-- A ticket of version 1 is read, and `encode` writes none, in any spelling. -/
theorem old_ticket_read :
    ¬ ∀ text clock, (∃ host port seed expiresAt relay nodeId text', Variant text' text ∧
        encode sampleWorld host port seed expiresAt relay nodeId = .ok text') ∨
      ∃ message, decode sampleWorld clock text = .error (.ticketError message) := by
  intro h
  rcases h oldTicket 0 with ⟨host, port, seed, expiresAt, relay, nodeId, text', hvariant, hencode⟩ |
    ⟨message, hmessage⟩
  · obtain ⟨first, tail, rfl, hversion⟩ := encode_begins hencode
    have hclean := clean_variant sampleWorld hvariant fun c hc => Base32.isDigit_of_mem_encode hc
    have hself := clean_variant sampleWorld (Variant.refl oldTicket)
      fun c hc => Base32.isDigit_of_mem_encode hc
    have hread := Base32.decode_encode (first :: tail)
    rw [← hclean, hself] at hread
    unfold oldTicket at hread
    rw [Base32.decode_encode] at hread
    obtain ⟨rfl, -⟩ := List.cons.inj (Option.some.inj hread)
    revert hversion
    decide
  · revert hmessage
    have hok : (decode sampleWorld 0 oldTicket).toOption.isSome = true := by decide +kernel
    intro hmessage
    rw [hmessage] at hok
    cases hok

theorem sample_ticket :
    ∃ text, encode sampleWorld (ascii "203.0.113.7") 9000 [1, 2, 3, 4, 5, 6, 7, 8] 661
        (some (ascii "203.0.113.7", 9001)) (List.replicate 20 7) = .ok text ∧ text.length ≤ maxText ∧
      ∀ text' clock, Variant text text' → ∃ t, decode sampleWorld clock text' = .ok t ∧
        Carries sampleWorld (ascii "203.0.113.7") 9000 (some (ascii "203.0.113.7", 9001))
          (List.replicate 20 7) [1, 2, 3, 4, 5, 6, 7, 8] 661 t := by
  have husable : ∀ port : ℤ, 1 ≤ port → port ≤ 65535 → Usable sampleWorld (ascii "203.0.113.7") port :=
    fun port hlow hhigh => ⟨⟨sample, by decide⟩, hlow, hhigh⟩
  refine (ticket_reads_back sampleWorld).1 _ 9000 _ _ _ 661 (fun _ => husable 9000 (by decide) (by decide))
    (fun r hr => ?_) (Or.inr (Option.some_ne_none _)) rfl (by norm_num)
  cases hr
  exact ⟨husable 9001 (by decide) (by decide), rfl⟩

end NMesh.Join.Reads
