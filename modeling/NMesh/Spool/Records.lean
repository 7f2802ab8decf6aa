import Mathlib.Data.List.Infix
import Mathlib.Data.UInt
import NMesh.Base.Reading

/-! # Records of a spool file

A link over a shared directory is two append-only files of records: a magic, the length of the payload,
its checksum, the payload. Whoever polls a file parses what it has not consumed yet, and keeps what is
after the last record it got, a record not fully written or a magic that may be split. The medium is not
trusted: what is no record is skipped up to the next magic.

The parser's payloads are a function of the stream alone. Cutting the stream anywhere, the payloads of
the whole are those of the front, and those of what the front left with the rest after it
(`parse_append`); it rests on `scanned_eq`, that what stands before the next magic does not matter. Hence
`polled_as_one`. -/

namespace NMesh.Spool.Records

open Base.BigEndian Base.Reading

/-! ### The checksum -/

def crcBit (c : UInt32) : UInt32 :=
  if c &&& 1 = 1 then (c >>> 1) ^^^ 0xEDB88320 else c >>> 1

def crcByte (c : UInt32) (x : UInt8) : UInt32 := crcBit^[8] (c ^^^ x.toUInt32)

/-- `zlib.crc32` -/
def crc32 (b : Bytes) : ℕ := (b.foldl crcByte 0xFFFFFFFF ^^^ 0xFFFFFFFF).toNat

theorem crc32_lt (b : Bytes) : crc32 b < 256 ^ 4 := UInt32.toNat_lt _

/-- The check value of the checksum's definition. -/
example : crc32 [0x31, 0x32, 0x33, 0x34, 0x35, 0x36, 0x37, 0x38, 0x39] = 0xCBF43926 := by
  decide +kernel

/-! ### The parser -/

/-- `_REC_MAGIC`: `NMSR`. -/
def recMagic : Bytes := [0x4E, 0x4D, 0x53, 0x52]

/-- `_REC.size`: magic, length, checksum. -/
def recSize : ℕ := 12

def maxRec : ℕ := 65535

def recLength (d : Bytes) : ℕ := ofBE ((d.drop 4).take 4)

def recCrc (d : Bytes) : ℕ := ofBE ((d.drop 8).take 4)

def recPayload (d : Bytes) : Bytes := (d.drop recSize).take (recLength d)

/-- `data.find(_REC_MAGIC)` -/
def findMagic : Bytes → Option ℕ
  | [] => none
  | x :: d => if recMagic <+: x :: d then some 0 else (findMagic d).map (· + 1)

/-- What stands at the front: not yet a whole record, no record, or one. -/
inductive Front where
  | more
  | skip
  | record (payload : Bytes)

/-- The body of the loop of `_parse_records`, `d` being the bytes from the position on. -/
def front (d : Bytes) : Front :=
  if d.length < recSize then .more
  else if d.take 4 ≠ recMagic ∨ maxRec < recLength d then .skip
  else if d.length < recSize + recLength d then .more
  else if crc32 (recPayload d) = recCrc d then .record (recPayload d)
  else .skip

variable {d : Bytes}

theorem length_of_front (h : front d ≠ .more) : recSize ≤ d.length := by
  by_contra hlt
  exact h (if_pos (not_le.mp hlt))

/-- **`_parse_records`**: the payloads, and how many bytes may be discarded. -/
def parseRecords (d : Bytes) : List Bytes × ℕ :=
  match _h : front d with
  | .more => ([], 0)
  | .record payload =>
    (payload :: (parseRecords (d.drop (recSize + payload.length))).1,
      recSize + payload.length + (parseRecords (d.drop (recSize + payload.length))).2)
  | .skip =>
    match findMagic d.tail with
    | none => ([], max 0 (d.length - 3))
    | some j => ((parseRecords (d.drop (j + 1))).1, j + 1 + (parseRecords (d.drop (j + 1))).2)
termination_by d.length
decreasing_by
  all_goals
    have hlen := length_of_front (d := d) (by simp [*])
    rw [List.length_drop]
    unfold recSize at *
    omega

def payloads (d : Bytes) : List Bytes := (parseRecords d).1

def tailOf (d : Bytes) : Bytes := d.drop (parseRecords d).2

theorem parse_more (h : front d = .more) : parseRecords d = ([], 0) := by
  rw [parseRecords]
  split <;> simp_all

variable {payload : Bytes}

theorem parse_record (h : front d = .record payload) :
    parseRecords d = (payload :: (parseRecords (d.drop (recSize + payload.length))).1,
      recSize + payload.length + (parseRecords (d.drop (recSize + payload.length))).2) := by
  rw [parseRecords]
  split <;> simp_all

theorem parse_skip_none (h : front d = .skip) (hfind : findMagic d.tail = none) :
    parseRecords d = ([], d.length - 3) := by
  rw [parseRecords]
  split <;> simp_all

theorem parse_skip_some {j : ℕ} (h : front d = .skip) (hfind : findMagic d.tail = some j) :
    parseRecords d = ((parseRecords (d.drop (j + 1))).1, j + 1 + (parseRecords (d.drop (j + 1))).2) := by
  rw [parseRecords]
  split <;> simp_all

/-! ### A longer stream -/

theorem front_append {a : Bytes} (h : front a ≠ .more) (b : Bytes) : front (a ++ b) = front a := by
  have h12 : recSize ≤ a.length := length_of_front h
  have hsize : recSize = 12 := rfl
  have hmagic : (a ++ b).take 4 = a.take 4 := List.take_append_of_le_length (by omega)
  have hdrop : ∀ n, n ≤ 12 → (a ++ b).drop n = a.drop n ++ b := fun n hn =>
    List.drop_append_of_le_length (by omega)
  have hlength : recLength (a ++ b) = recLength a := by
    unfold recLength
    rw [hdrop 4 (by omega), List.take_append_of_le_length (by rw [List.length_drop]; omega)]
  have hcrc : recCrc (a ++ b) = recCrc a := by
    unfold recCrc
    rw [hdrop 8 (by omega), List.take_append_of_le_length (by rw [List.length_drop]; omega)]
  have hlong : ¬ (a ++ b).length < recSize := by
    rw [List.length_append]
    omega
  unfold front at h ⊢
  rw [if_neg (not_lt.mpr h12)] at h ⊢
  rw [if_neg hlong, hmagic, hlength]
  by_cases hbad : a.take 4 ≠ recMagic ∨ maxRec < recLength a
  · rw [if_pos hbad, if_pos hbad]
  · rw [if_neg hbad] at h ⊢
    rw [if_neg hbad]
    have hbody : ¬ a.length < recSize + recLength a := fun hlt => h (if_pos hlt)
    have hbody' : ¬ (a ++ b).length < recSize + recLength a := by
      rw [List.length_append]
      omega
    have hpayload : recPayload (a ++ b) = recPayload a := by
      unfold recPayload
      rw [hlength, hdrop recSize (by omega), List.take_append_of_le_length (by rw [List.length_drop]; omega)]
    rw [if_neg hbody, if_neg hbody', hpayload, hcrc]

theorem length_of_record (h : front d = .record payload) : recSize + payload.length ≤ d.length := by
  unfold front at h
  split_ifs at h with h12 hbad hbody
  have hpayload : recPayload d = payload := Front.record.inj h
  have hlen := List.length_take_le (recLength d) (d.drop recSize)
  rw [← hpayload]
  unfold recPayload
  omega

theorem findMagic_short : ∀ {c : Bytes}, c.length < recMagic.length → findMagic c = none
  | [], _ => rfl
  | x :: c, hc => by
    rw [findMagic, if_neg (fun hp => absurd hp.length_le (not_le.mpr hc)),
      findMagic_short (lt_trans (Nat.lt_succ_self _) hc)]
    rfl

theorem findMagic_append {a : Bytes} {j : ℕ} (h : findMagic a = some j) (b : Bytes) :
    findMagic (a ++ b) = some j := by
  induction a generalizing j with
  | nil => cases h
  | cons x a ih =>
    unfold findMagic at h
    rw [List.cons_append, findMagic]
    by_cases hx : recMagic <+: x :: a
    · rw [if_pos hx] at h
      have hx' : recMagic <+: x :: (a ++ b) := hx.trans (List.prefix_append (x :: a) b)
      rw [if_pos hx']
      exact h
    · rw [if_neg hx] at h
      obtain ⟨i, hi, rfl⟩ := Option.map_eq_some_iff.mp h
      have hx' : ¬ recMagic <+: x :: (a ++ b) := by
        intro hp
        -- the magic found in what follows is whole, so the front is long enough to decide
        have hlen : recMagic.length ≤ (x :: a).length := by
          by_contra hshort
          rw [findMagic_short (lt_trans (Nat.lt_succ_self _) (not_le.mp hshort))] at hi
          cases hi
        exact hx (List.prefix_of_prefix_length_le hp (List.prefix_append (x :: a) b) hlen)
      rw [if_neg hx', ih hi]
      rfl

theorem findMagic_le {a : Bytes} {j : ℕ} (h : findMagic a = some j) : j < a.length := by
  induction a generalizing j with
  | nil => cases h
  | cons x a ih =>
    unfold findMagic at h
    by_cases hx : recMagic <+: x :: a
    · rw [if_pos hx] at h
      rw [← Option.some.inj h]
      exact Nat.succ_pos _
    · rw [if_neg hx] at h
      obtain ⟨i, hi, rfl⟩ := Option.map_eq_some_iff.mp h
      exact Nat.succ_lt_succ (ih hi)

/-! ### What stands before the next magic -/

def scanned (d : Bytes) : List Bytes := (findMagic d).elim [] fun j => payloads (d.drop j)

theorem scanned_cons {x : UInt8} (h : ¬ recMagic <+: x :: d) : scanned (x :: d) = scanned d := by
  unfold scanned
  rw [findMagic, if_neg h]
  cases findMagic d with
  | none | some j => rfl

theorem payloads_of_skip (h : front d = .skip) : payloads d = scanned d.tail := by
  unfold payloads scanned
  rcases hfind : findMagic d.tail with _ | j
  · rw [parse_skip_none h hfind]
    rfl
  · rw [parse_skip_some h hfind, Option.elim_some, List.drop_tail]
    rfl

theorem payloads_of_more (h : front d = .more) : payloads d = [] := by
  unfold payloads
  rw [parse_more h]

theorem payloads_short (h : d.length < recSize) : payloads d = [] :=
  payloads_of_more (if_pos h)

theorem scanned_eq : ∀ d : Bytes, scanned d = payloads d
  | [] => by rw [payloads_short (by decide)]; rfl
  | x :: d => by
    by_cases hx : recMagic <+: x :: d
    · unfold scanned
      rw [findMagic, if_pos hx]
      rfl
    · rw [scanned_cons hx]
      by_cases hlen : (x :: d).length < recSize
      · rw [scanned_eq d, payloads_short hlen, payloads_short (lt_trans (Nat.lt_succ_self _) hlen)]
      · have hskip : front (x :: d) = .skip := by
          unfold front
          rw [if_neg hlen, if_pos (Or.inl fun heq => hx ?_)]
          rw [← heq]
          exact List.take_prefix 4 (x :: d)
        rw [payloads_of_skip hskip, List.tail_cons]

theorem payloads_split_magic (b : Bytes) : ∀ {c : Bytes}, findMagic c = none →
    payloads (c ++ b) = payloads (c.drop (c.length - 3) ++ b)
  | [], _ => rfl
  | x :: c, h => by
    unfold findMagic at h
    by_cases hx : recMagic <+: x :: c
    · rw [if_pos hx] at h
      cases h
    · rw [if_neg hx, Option.map_eq_none_iff] at h
      by_cases hlen : c.length < 3
      · have hz : (x :: c).length - 3 = 0 := by rw [List.length_cons]; omega
        rw [hz, List.drop_zero]
      · have hx' : ¬ recMagic <+: x :: (c ++ b) := fun hp =>
          hx (List.prefix_of_prefix_length_le hp (List.prefix_append (x :: c) b)
            (by rw [List.length_cons]; change 4 ≤ _; omega))
        have hs : (x :: c).length - 3 = (c.length - 3) + 1 := by rw [List.length_cons]; omega
        rw [List.cons_append, ← scanned_eq, scanned_cons hx', scanned_eq, payloads_split_magic b h, hs,
          List.drop_succ_cons]

/-- **A stream cut anywhere**: the payloads of the whole are those of the front, and those of what the
front leaves with the rest after it. -/
theorem parse_append : ∀ (n : ℕ) {a : Bytes}, a.length ≤ n → ∀ b : Bytes,
    payloads (a ++ b) = payloads a ++ payloads (tailOf a ++ b)
  | n, a, hn, b => by
    rcases hf : front a with _ | _ | p
    · rw [payloads_of_more hf]
      unfold tailOf
      rw [parse_more hf]
      rfl
    · have hne : front a ≠ .more := by rw [hf]; simp
      have hlen := length_of_front hne
      have hsize : recSize = 12 := rfl
      have happ : front (a ++ b) = .skip := by rw [front_append hne, hf]
      have htail : (a ++ b).tail = a.tail ++ b := List.tail_append_of_ne_nil (by rintro rfl; simp at hlen; omega)
      rcases hfind : findMagic a.tail with _ | j
      · have hk : (parseRecords a).2 = a.length - 3 := by rw [parse_skip_none hf hfind]
        have hp : payloads a = [] := by unfold payloads; rw [parse_skip_none hf hfind]
        have hdrop : a.tail.drop (a.tail.length - 3) = a.drop (a.length - 3) := by
          rw [List.length_tail, ← List.drop_one, List.drop_drop]
          congr 1
          omega
        unfold tailOf
        rw [hp, List.nil_append, hk, payloads_of_skip happ, scanned_eq, htail,
          payloads_split_magic b hfind, hdrop]
      · have hj := findMagic_le hfind
        rw [List.length_tail] at hj
        have happfind : findMagic (a ++ b).tail = some j := by rw [htail]; exact findMagic_append hfind b
        have hwhole : payloads (a ++ b) = payloads (a.drop (j + 1) ++ b) := by
          unfold payloads
          rw [parse_skip_some happ happfind, List.drop_append_of_le_length (by omega)]
        have hp : payloads a = payloads (a.drop (j + 1)) := by
          unfold payloads
          rw [parse_skip_some hf hfind]
        have hleft : tailOf a = tailOf (a.drop (j + 1)) := by
          unfold tailOf
          rw [parse_skip_some hf hfind, List.drop_drop]
        obtain ⟨n, rfl⟩ : ∃ m, n = m + 1 := ⟨n - 1, by omega⟩
        rw [hwhole, hp, hleft]
        exact parse_append n (by rw [List.length_drop]; omega) b
    · have hne : front a ≠ .more := by rw [hf]; simp
      have hlen := length_of_record hf
      have hsize : recSize = 12 := rfl
      have happ : front (a ++ b) = .record p := by rw [front_append hne, hf]
      have hwhole : payloads (a ++ b) = p :: payloads (a.drop (recSize + p.length) ++ b) := by
        unfold payloads
        rw [parse_record happ, List.drop_append_of_le_length hlen]
      have hp : payloads a = p :: payloads (a.drop (recSize + p.length)) := by
        unfold payloads
        rw [parse_record hf]
      have hleft : tailOf a = tailOf (a.drop (recSize + p.length)) := by
        unfold tailOf
        rw [parse_record hf, List.drop_drop]
      obtain ⟨n, rfl⟩ : ∃ m, n = m + 1 := ⟨n - 1, by omega⟩
      rw [hwhole, hp, hleft, List.cons_append,
        parse_append n (by rw [List.length_drop]; omega) b]

/-! ### Reading as the file grows -/

/-- One read: the unconsumed tail and what was got so far, after a stretch of the stream arrived. -/
def feed (s : Bytes × List Bytes) (chunk : Bytes) : Bytes × List Bytes :=
  (tailOf (s.1 ++ chunk), s.2 ++ payloads (s.1 ++ chunk))

/-- The reader's side of a link: the file so far, how much of it is consumed, the payloads decoded. -/
structure Receiver where
  file : Bytes
  offset : ℕ
  decoded : List Bytes

def Receiver.readNew (r : Receiver) : Bytes := r.file.drop r.offset

/-- The body of `receive`, after the peer appended `chunk` to the file. -/
def Receiver.poll (r : Receiver) (chunk : Bytes) : Receiver :=
  let data := ({ r with file := r.file ++ chunk } : Receiver).readNew
  if data = [] then { r with file := r.file ++ chunk }
  else { file := r.file ++ chunk, offset := r.offset + (parseRecords data).2,
         decoded := r.decoded ++ (parseRecords data).1 }

theorem payloads_nil : payloads [] = [] := payloads_short (by decide)

theorem consumed_le : ∀ (n : ℕ) {d : Bytes}, d.length ≤ n → (parseRecords d).2 ≤ d.length
  | n, d, hn => by
    have hsize : recSize = 12 := rfl
    rcases hf : front d with _ | _ | p
    · rw [parse_more hf]
      exact Nat.zero_le _
    · have hlen := length_of_front (d := d) (by rw [hf]; simp)
      obtain ⟨n, rfl⟩ : ∃ m, n = m + 1 := ⟨n - 1, by omega⟩
      rcases hfind : findMagic d.tail with _ | j
      · rw [parse_skip_none hf hfind]
        exact Nat.sub_le _ _
      · have hj := findMagic_le hfind
        have hrest := consumed_le n (d := d.drop (j + 1)) (by rw [List.length_drop]; omega)
        rw [List.length_tail] at hj
        rw [List.length_drop] at hrest
        rw [parse_skip_some hf hfind]
        show j + 1 + _ ≤ _
        omega
    · have hlen := length_of_record hf
      obtain ⟨n, rfl⟩ : ∃ m, n = m + 1 := ⟨n - 1, by omega⟩
      have hrest := consumed_le n (d := d.drop (recSize + p.length)) (by rw [List.length_drop]; omega)
      rw [List.length_drop] at hrest
      rw [parse_record hf]
      show recSize + p.length + _ ≤ _
      omega

/-- **What is discarded is not needed**: after any reads, whatever still follows in the stream, the
payloads of the whole are those got and those of the tail with what follows. -/
theorem feed_all (chunks : List Bytes) (later : Bytes) :
    payloads (chunks.flatten ++ later) =
      (chunks.foldl feed ([], [])).2 ++ payloads ((chunks.foldl feed ([], [])).1 ++ later) := by
  induction chunks using List.reverseRecOn generalizing later with
  | nil => rfl
  | append_singleton chunks chunk ih =>
    rw [List.foldl_append, List.flatten_append, List.flatten_singleton, List.append_assoc, ih]
    have hstep : [chunk].foldl feed (chunks.foldl feed ([], [])) =
        feed (chunks.foldl feed ([], [])) chunk := rfl
    rw [hstep]
    unfold feed
    rw [← List.append_assoc, parse_append _ le_rfl later, List.append_assoc]

theorem payloads_tail (d : Bytes) : payloads (tailOf d) = [] := by
  have h := parse_append _ (le_refl d.length) []
  rw [List.append_nil, List.append_nil] at h
  exact List.append_right_eq_self.mp h.symm

theorem feed_done (chunks : List Bytes) : payloads (chunks.foldl feed ([], [])).1 = [] := by
  rcases List.eq_nil_or_concat chunks with rfl | ⟨chunks, chunk, rfl⟩
  · exact payloads_nil
  · rw [List.concat_eq_append, List.foldl_append]
    exact payloads_tail _

theorem poll_all (chunks : List Bytes) :
    (chunks.foldl Receiver.poll ⟨[], 0, []⟩).file = chunks.flatten ∧
    (chunks.foldl Receiver.poll ⟨[], 0, []⟩).offset ≤ chunks.flatten.length ∧
    ((chunks.foldl Receiver.poll ⟨[], 0, []⟩).readNew, (chunks.foldl Receiver.poll ⟨[], 0, []⟩).decoded) =
      chunks.foldl feed ([], []) := by
  induction chunks using List.reverseRecOn with
  | nil => exact ⟨rfl, le_rfl, rfl⟩
  | append_singleton chunks chunk ih =>
    obtain ⟨hfile, hoffset, hfeed⟩ := ih
    rw [List.foldl_append, List.foldl_append, List.flatten_append, List.flatten_singleton, ← hfeed]
    generalize chunks.foldl Receiver.poll ⟨[], 0, []⟩ = r at hfile hoffset
    show (r.poll chunk).file = _ ∧ (r.poll chunk).offset ≤ _ ∧
      ((r.poll chunk).readNew, (r.poll chunk).decoded) = feed (r.readNew, r.decoded) chunk
    have hdata : (r.file ++ chunk).drop r.offset = r.readNew ++ chunk :=
      List.drop_append_of_le_length (by rw [hfile]; exact hoffset)
    by_cases hnil : (r.file ++ chunk).drop r.offset = []
    · have hpoll : r.poll chunk = { r with file := r.file ++ chunk } := if_pos hnil
      rw [hpoll]
      refine ⟨by rw [hfile], ?_, ?_⟩
      · rw [List.length_append]
        exact Nat.le_add_right_of_le hoffset
      · unfold feed
        rw [← hdata, hnil, payloads_nil, List.append_nil]
        have htail : tailOf [] = [] := List.drop_nil
        refine Prod.ext ?_ rfl
        rw [htail]
        exact hnil
    · have hpoll : r.poll chunk =
          ⟨r.file ++ chunk, r.offset + (parseRecords ((r.file ++ chunk).drop r.offset)).2,
            r.decoded ++ (parseRecords ((r.file ++ chunk).drop r.offset)).1⟩ := if_neg hnil
      rw [hpoll, hdata]
      refine ⟨by rw [hfile], ?_, ?_⟩
      · have hle := consumed_le _ (le_refl (r.readNew ++ chunk).length)
        have hlen : (r.readNew ++ chunk).length = (chunks.flatten ++ chunk).length - r.offset := by
          rw [← hdata, List.length_drop, hfile]
        show r.offset + (parseRecords (r.readNew ++ chunk)).2 ≤ _
        rw [hlen] at hle
        rw [List.length_append] at hle ⊢
        omega
      · refine Prod.ext ?_ rfl
        show (r.file ++ chunk).drop (r.offset + _) = tailOf (r.readNew ++ chunk)
        rw [← List.drop_drop, hdata]
        rfl

/-! ### What is written -/

def packRecord (payload : Bytes) : Bytes :=
  recMagic ++ toBE 4 payload.length ++ toBE 4 (crc32 payload) ++ payload

/-- What `send` writes, `none` where it raises. -/
def sendRecord (payload : Bytes) : Option Bytes :=
  if maxRec < payload.length then none else some (packRecord payload)

theorem length_packRecord (payload : Bytes) : (packRecord payload).length = recSize + payload.length := by
  simp only [packRecord, List.length_append, length_toBE]
  rfl

theorem front_packRecord (h : payload.length ≤ maxRec) (rest : Bytes) :
    front (packRecord payload ++ rest) = .record payload := by
  have h0 : From (packRecord payload ++ rest) 0
      (recMagic ++ (toBE 4 payload.length ++ (toBE 4 (crc32 payload) ++ (payload ++ rest)))) :=
    ⟨Nat.zero_le _, by simp only [packRecord, List.append_assoc, List.drop_zero]⟩
  have h4 := h0.next (n := 4) rfl
  have h8 := h4.next (length_toBE ..)
  have h12 := h8.next (length_toBE ..)
  have hlength : recLength (packRecord payload ++ rest) = payload.length := h4.field (lt_of_le_of_lt h (by decide))
  have hmagic : (packRecord payload ++ rest).take 4 = recMagic := h0.slice rfl
  have hcrc : recCrc (packRecord payload ++ rest) = crc32 payload := h8.field (crc32_lt payload)
  have hpayload : recPayload (packRecord payload ++ rest) = payload := by
    rw [recPayload, hlength]
    exact h12.slice rfl
  unfold front
  rw [hlength, hpayload, hmagic, hcrc, List.length_append, length_packRecord, if_neg (by omega), if_neg (by simp; omega),
    if_neg (by omega), if_pos rfl]

theorem payloads_packRecord (h : payload.length ≤ maxRec) (rest : Bytes) :
    payloads (packRecord payload ++ rest) = payload :: payloads rest := by
  unfold payloads
  rw [parse_record (front_packRecord h rest), List.drop_left' (length_packRecord payload)]

theorem payloads_records : ∀ {ps : List Bytes}, (∀ p ∈ ps, p.length ≤ maxRec) →
    payloads (ps.map packRecord).flatten = ps
  | [], _ => payloads_nil
  | p :: ps, h => by
    rw [List.map_cons, List.flatten_cons, payloads_packRecord (h p List.mem_cons_self),
      payloads_records fun p' hp' => h p' (List.mem_cons_of_mem _ hp')]

theorem findMagic_garbage : ∀ {garbage : Bytes}, ¬ recMagic <:+: garbage → ∀ {d : Bytes},
    d = [] ∨ recMagic <+: d → scanned (garbage ++ d) = scanned d
  | [], _, _, _ => rfl
  | x :: garbage, h, d, hd => by
    have hx : ¬ recMagic <+: x :: (garbage ++ d) := by
      intro hp
      by_cases hlen : 4 ≤ (x :: garbage).length
      · exact h (List.prefix_of_prefix_length_le hp (List.prefix_append (x :: garbage) d) hlen).isInfix
      · rcases hd with rfl | ⟨rest, rfl⟩
        · rw [List.append_nil] at hp
          exact hlen hp.length_le
        · -- no proper end of the magic begins another one
          obtain ⟨rest', hrest⟩ := hp
          rcases garbage with _ | ⟨y, _ | ⟨z, _ | ⟨w, garbage⟩⟩⟩
          · simp [recMagic] at hrest
          · simp [recMagic] at hrest
          · simp [recMagic] at hrest
          · simp only [List.length_cons] at hlen
            omega
    rw [List.cons_append, scanned_cons hx,
      findMagic_garbage (fun hin => h (hin.trans (List.suffix_cons x garbage).isInfix)) hd]

theorem payloads_garbage {garbage : Bytes} (h : ¬ recMagic <:+: garbage) {ps : List Bytes}
    (hps : ∀ p ∈ ps, p.length ≤ maxRec) :
    payloads (garbage ++ (ps.map packRecord).flatten) = ps := by
  have hd : (ps.map packRecord).flatten = [] ∨ recMagic <+: (ps.map packRecord).flatten := by
    rcases ps with _ | ⟨p, ps⟩
    · exact Or.inl rfl
    · right
      rw [List.map_cons, List.flatten_cons]
      unfold packRecord
      simp only [List.append_assoc]
      exact List.prefix_append _ _
  rw [← scanned_eq, findMagic_garbage h hd, scanned_eq, payloads_records hps]

/-- **Polling does not matter.** Whatever the stream and however it is cut into reads: the payloads got
are those of one call on the whole stream, for the parser fed its unconsumed tail and for the receiver
that keeps an offset into the file; whatever still follows, what was discarded is not needed; and the
records of any payloads that fit, after garbage without a magic, give exactly these payloads. -/
theorem polled_as_one (chunks : List Bytes) :
    (chunks.foldl feed ([], [])).2 = payloads chunks.flatten ∧
    (chunks.foldl Receiver.poll ⟨[], 0, []⟩).decoded = payloads chunks.flatten ∧
    (∀ later : Bytes, payloads (chunks.flatten ++ later) =
      (chunks.foldl feed ([], [])).2 ++ payloads ((chunks.foldl feed ([], [])).1 ++ later)) ∧
    ∀ (garbage : Bytes) (ps : List Bytes), ¬ recMagic <:+: garbage → (∀ p ∈ ps, p.length ≤ maxRec) →
      (∀ p ∈ ps, sendRecord p = some (packRecord p)) ∧
      payloads (garbage ++ (ps.map packRecord).flatten) = ps := by
  have hall : (chunks.foldl feed ([], [])).2 = payloads chunks.flatten := by
    have h := feed_all chunks []
    rw [List.append_nil, List.append_nil, feed_done, List.append_nil] at h
    exact h.symm
  refine ⟨hall, ?_, feed_all chunks, fun garbage ps hgarbage hps => ⟨fun p hp => ?_, ?_⟩⟩
  · rw [← hall, ← (poll_all chunks).2.2]
  · exact if_neg (not_lt.mpr (hps p hp))
  · exact payloads_garbage hgarbage hps

theorem polled_two : payloads ([0x4E, 0x4D, 0x53] ++ ([[1, 2], []].map packRecord).flatten) = [[1, 2], []] :=
  ((polled_as_one []).2.2.2 [0x4E, 0x4D, 0x53] [[1, 2], []] (by decide) (by decide)).2

end NMesh.Spool.Records
