import NMesh.Base.Utf8
import Mathlib.Data.List.DropRight

/-! # Base 32 without padding

`b32encode` and `b32decode` work on groups of five bytes, eight digits each, the last group filled with
`=`, as in `base64`. A text is kept without the filling: `encode` takes it off, and `decode` puts it on
again (`decode_encode`). -/

namespace NMesh.Base.Base32

open Base.BigEndian Base.Utf8

def digit (n : ℕ) : ℕ := if n < 26 then 0x41 + n else 0x18 + n

/-- The value of a digit, in either case. -/
def ofDigit (c : ℕ) : Option ℕ :=
  if 0x41 ≤ c ∧ c ≤ 0x5A then some (c - 0x41)
  else if 0x61 ≤ c ∧ c ≤ 0x7A then some (c - 0x61)
  else if 0x32 ≤ c ∧ c ≤ 0x37 then some (c - 0x18)
  else none

def pad : ℕ := 0x3D

/-- `w` digits of a number. -/
def digits : ℕ → ℕ → Text
  | 0, _ => []
  | w + 1, n => digits w (n / 32) ++ [digit (n % 32)]

/-- The number some digits stand for; `none` if one is no digit. -/
def value (acc : ℕ) : Text → Option ℕ
  | [] => some acc
  | c :: text =>
    match ofDigit c with
    | none => none
    | some v => value (acc * 32 + v) text

/-- How many of the last eight digits are filling, by the bytes left. -/
def filling (left : ℕ) : ℕ :=
  if left = 1 then 6 else if left = 2 then 4 else if left = 3 then 3 else if left = 4 then 1 else 0

def groups : ℕ → Bytes → Text
  | 0, _ => []
  | n + 1, data => digits 8 (ofBE (data.take 5)) ++ groups n (data.drop 5)

/-- The last group, if bytes are left. -/
def lastGroup (left : Bytes) : Text :=
  if left = [] then []
  else
    (digits 8 (ofBE (left ++ List.replicate (5 - left.length) 0))).take (8 - filling left.length) ++
      List.replicate (filling left.length) pad

/-- `base64.b32encode(data).decode("ascii")` -/
def b32encode (data : Bytes) : Text :=
  groups (data.length / 5) data ++ lastGroup (data.drop (5 * (data.length / 5)))

def readGroups : ℕ → Text → Option Bytes
  | 0, _ => some []
  | n + 1, text =>
    match value 0 (text.take 8) with
    | none => none
    | some acc => (readGroups n (text.drop 8)).map (toBE 5 acc ++ ·)

/-- `base64.b32decode(text, casefold=True)`; `none` where it raises. -/
def b32decode (text : Text) : Option Bytes :=
  if text.any fun c => 0x80 ≤ c then none
  else if text.length % 8 ≠ 0 then none
  else
    let stripped := text.rdropWhile (· = pad)
    let padchars := text.length - stripped.length
    match readGroups (stripped.length / 8) stripped,
        value 0 (stripped.drop (8 * (stripped.length / 8))) with
    | some decoded, some acc =>
      if padchars ∉ [0, 1, 3, 4, 6] then none
      else if padchars = 0 then some decoded
      else some (decoded ++ (toBE 5 (acc * 32 ^ padchars)).take ((43 - 5 * padchars) / 8))
    | _, _ => none

/-- `_b32` -/
def encode (data : Bytes) : Text := (b32encode data).rdropWhile (· = pad)

/-- `_unb32` -/
def decode (text : Text) : Option Bytes :=
  b32decode (text ++ List.replicate ((8 - text.length % 8) % 8) pad)

/-! ### Digits -/

theorem ofDigit_digit {n : ℕ} (h : n < 32) : ofDigit (digit n) = some n := by
  unfold digit ofDigit
  split_ifs <;> first | omega | (congr 1; omega)

/-- The digits: capital letters and `2` to `7`. -/
def IsDigit (c : ℕ) : Prop := 0x41 ≤ c ∧ c ≤ 0x5A ∨ 0x32 ≤ c ∧ c ≤ 0x37

theorem isDigit_digit {n : ℕ} (h : n < 32) : IsDigit (digit n) := by
  unfold digit IsDigit
  split_ifs <;> omega

@[simp] theorem length_digits : ∀ w n : ℕ, (digits w n).length = w
  | 0, _ => rfl
  | w + 1, n => by rw [digits, List.length_append, length_digits w]; rfl

theorem isDigit_of_mem_digits : ∀ {w n c : ℕ}, c ∈ digits w n → IsDigit c
  | 0, _, _, h => absurd h List.not_mem_nil
  | w + 1, n, c, h => by
    rcases List.mem_append.mp h with h | h
    · exact isDigit_of_mem_digits h
    · rw [List.mem_singleton.mp h]
      exact isDigit_digit (Nat.mod_lt _ (by decide))

theorem value_append : ∀ {text text' : Text} {acc v : ℕ}, value acc text = some v →
    value acc (text ++ text') = value v text'
  | [], _, _, _, h => by rw [← Option.some.inj h]; rfl
  | c :: text, text', acc, v, h => by
    rw [value] at h
    rw [List.cons_append, value]
    cases hc : ofDigit c with
    | none => rw [hc] at h; cases h
    | some x =>
      rw [hc] at h
      exact value_append h

theorem value_digits : ∀ {w n : ℕ}, n < 32 ^ w → value 0 (digits w n) = some n
  | 0, n, h => by rw [pow_zero] at h; obtain rfl : n = 0 := by omega
                  rfl
  | w + 1, n, h => by
    have hdiv : n / 32 < 32 ^ w := by
      rw [pow_succ] at h
      exact Nat.div_lt_of_lt_mul (by rw [Nat.mul_comm]; exact h)
    rw [digits, value_append (value_digits hdiv), value, ofDigit_digit (Nat.mod_lt _ (by decide))]
    show some (n / 32 * 32 + n % 32) = some n
    congr 1
    omega

theorem take_digits (w : ℕ) : ∀ j n : ℕ, (digits (w + j) n).take w = digits w (n / 32 ^ j)
  | 0, n => by rw [Nat.add_zero, pow_zero, Nat.div_one, List.take_of_length_le (length_digits w n).le]
  | j + 1, n => by
    rw [← Nat.add_assoc, digits, List.take_append_of_le_length (by rw [length_digits]; omega),
      take_digits w j, Nat.div_div_eq_div_mul, pow_succ, Nat.mul_comm 32]

/-! ### Numbers of bytes -/

theorem ofBE_append (b b' : Bytes) : ofBE (b ++ b') = ofBE b * 256 ^ b'.length + ofBE b' := by
  induction b' using List.reverseRecOn with
  | nil => simp [ofBE]
  | append_singleton b' x ih =>
    rw [← List.append_assoc, ofBE_append_singleton, ih, ofBE_append_singleton, List.length_append,
      List.length_singleton, pow_succ]
    ring

theorem ofBE_zeros (n : ℕ) : ofBE (List.replicate n 0) = 0 := by
  induction n with
  | zero => rfl
  | succ n ih =>
    rw [List.replicate_succ', ofBE_append_singleton, ih]
    rfl

/-! ### Groups -/

@[simp] theorem length_groups : ∀ (n : ℕ) (data : Bytes), (groups n data).length = 8 * n
  | 0, _ => rfl
  | n + 1, data => by
    rw [groups, List.length_append, length_digits, length_groups n]
    omega

theorem isDigit_of_mem_groups : ∀ {n : ℕ} {data : Bytes} {c : ℕ}, c ∈ groups n data → IsDigit c
  | 0, _, _, h => absurd h List.not_mem_nil
  | n + 1, data, c, h => by
    rcases List.mem_append.mp h with h | h
    · exact isDigit_of_mem_digits h
    · exact isDigit_of_mem_groups h

theorem readGroups_groups (rest : Text) : ∀ {n : ℕ} {data : Bytes}, 5 * n ≤ data.length →
    readGroups n (groups n data ++ rest) = some (data.take (5 * n))
  | 0, _, _ => by rw [Nat.mul_zero, List.take_zero]; rfl
  | n + 1, data, h => by
    have hlen : (data.take 5).length = 5 := by rw [List.length_take]; omega
    have hlt : ofBE (data.take 5) < 32 ^ 8 := by
      have := ofBE_lt (data.take 5)
      rw [hlen] at this
      exact this.trans_eq (by norm_num)
    have hdrop : 5 * n ≤ (data.drop 5).length := by rw [List.length_drop]; omega
    have htake : (groups (n + 1) data ++ rest).take 8 = digits 8 (ofBE (data.take 5)) := by
      rw [groups, List.append_assoc, List.take_left' (length_digits 8 _)]
    have hrest : (groups (n + 1) data ++ rest).drop 8 = groups n (data.drop 5) ++ rest := by
      rw [groups, List.append_assoc, List.drop_left' (length_digits 8 _)]
    rw [readGroups, htake, hrest, value_digits hlt]
    dsimp only
    rw [readGroups_groups rest hdrop, Option.map_some]
    have hbytes : toBE 5 (ofBE (data.take 5)) = data.take 5 := by
      have := toBE_ofBE (data.take 5)
      rwa [hlen] at this
    rw [hbytes, Nat.mul_add, Nat.mul_one, Nat.add_comm (5 * n) 5, List.take_add]

/-- The digits of the last group, without the filling. -/
def lastDigits (left : Bytes) : Text :=
  if left = [] then []
  else digits (8 - filling left.length)
    (ofBE left * 256 ^ (5 - left.length) / 32 ^ filling left.length)

theorem lastGroup_eq (left : Bytes) :
    lastGroup left = lastDigits left ++ List.replicate (filling left.length) pad := by
  unfold lastGroup lastDigits
  by_cases hnil : left = []
  · rw [if_pos hnil, if_pos hnil, hnil]
    rfl
  · rw [if_neg hnil, if_neg hnil]
    congr 1
    have hfill : filling left.length ≤ 8 := by unfold filling; split_ifs <;> omega
    have hsum : 8 - filling left.length + filling left.length = 8 := by omega
    have htake := take_digits (8 - filling left.length) (filling left.length)
      (ofBE (left ++ List.replicate (5 - left.length) 0))
    rw [hsum] at htake
    rw [htake, ofBE_append, ofBE_zeros, List.length_replicate, Nat.add_zero]

theorem length_lastDigits (left : Bytes) :
    (lastDigits left).length = if left = [] then 0 else 8 - filling left.length := by
  unfold lastDigits
  split_ifs
  · rfl
  · exact length_digits _ _

theorem isDigit_of_mem_lastDigits {left : Bytes} {c : ℕ} (h : c ∈ lastDigits left) : IsDigit c := by
  unfold lastDigits at h
  split_ifs at h
  · exact absurd h List.not_mem_nil
  · exact isDigit_of_mem_digits h

theorem lastDigits_whole {left : Bytes} (hne : left ≠ []) (h : left.length < 5) :
    ofBE left * 256 ^ (5 - left.length) / 32 ^ filling left.length * 32 ^ filling left.length =
        ofBE left * 256 ^ (5 - left.length) ∧
      ofBE left * 256 ^ (5 - left.length) / 32 ^ filling left.length < 32 ^ (8 - filling left.length) := by
  have hlt := ofBE_lt left
  have hpos : 0 < left.length := List.length_pos_iff.mpr hne
  have hf : filling 1 = 6 ∧ filling 2 = 4 ∧ filling 3 = 3 ∧ filling 4 = 1 := by decide
  obtain ⟨h1, h2, h3, h4⟩ := hf
  rcases (by omega : left.length = 1 ∨ left.length = 2 ∨ left.length = 3 ∨ left.length = 4) with
    hm | hm | hm | hm
  all_goals
    rw [hm] at hlt ⊢
    norm_num [h1, h2, h3, h4] at hlt ⊢
    omega

theorem toBE_mul_pow (w k n : ℕ) : toBE (w + k) (n * 256 ^ k) = toBE w n ++ List.replicate k 0 := by
  induction k with
  | zero => simp
  | succ k ih =>
    have hdiv : n * 256 ^ (k + 1) / 256 = n * 256 ^ k := by
      rw [pow_succ, ← Nat.mul_assoc, Nat.mul_div_cancel _ (by decide)]
    have hmod : n * 256 ^ (k + 1) % 256 = 0 := by
      rw [pow_succ, ← Nat.mul_assoc, Nat.mul_mod_left]
    rw [← Nat.add_assoc, toBE, hdiv, hmod, ih, List.replicate_succ', List.append_assoc]
    rfl

theorem last_read {left : Bytes} (hne : left ≠ []) (h : left.length < 5) :
    ∃ acc, value 0 (lastDigits left) = some acc ∧
      (toBE 5 (acc * 32 ^ filling left.length)).take ((43 - 5 * filling left.length) / 8) = left := by
  obtain ⟨hwhole, hsmall⟩ := lastDigits_whole hne h
  refine ⟨ofBE left * 256 ^ (5 - left.length) / 32 ^ filling left.length, ?_, ?_⟩
  · unfold lastDigits
    rw [if_neg hne]
    exact value_digits hsmall
  · have hpos : 0 < left.length := List.length_pos_iff.mpr hne
    have hleftover : (43 - 5 * filling left.length) / 8 = left.length := by
      unfold filling
      split_ifs <;> omega
    have hfive : left.length + (5 - left.length) = 5 := by omega
    have hbytes := toBE_mul_pow left.length (5 - left.length) (ofBE left)
    rw [hfive, toBE_ofBE] at hbytes
    rw [hwhole, hleftover, hbytes, List.take_left]

/-! ### Texts -/

theorem isDigit_ne_pad {c : ℕ} (h : IsDigit c) : c ≠ pad := by
  unfold IsDigit pad at *
  omega

theorem rdropWhile_filled {text : Text} (h : ∀ c ∈ text, IsDigit c) : ∀ n : ℕ,
    (text ++ List.replicate n pad).rdropWhile (· = pad) = text
  | 0 => by
    rw [List.replicate_zero, List.append_nil, List.rdropWhile_eq_self_iff]
    intro hne
    simpa using isDigit_ne_pad (h _ (List.getLast_mem hne))
  | n + 1 => by
    rw [List.replicate_succ', ← List.append_assoc, List.rdropWhile_concat_pos _ _ _ (by simp)]
    exact rdropWhile_filled h n

/-- What is left behind the full groups. -/
def leftOver (data : Bytes) : Bytes := data.drop (5 * (data.length / 5))

theorem length_leftOver (data : Bytes) : (leftOver data).length = data.length % 5 := by
  unfold leftOver
  rw [List.length_drop]
  omega

theorem b32encode_eq (data : Bytes) : b32encode data =
    groups (data.length / 5) data ++ lastDigits (leftOver data) ++
      List.replicate (filling (leftOver data).length) pad := by
  show groups _ _ ++ lastGroup (leftOver data) = _
  rw [lastGroup_eq, List.append_assoc]

theorem isDigit_of_mem_body {data : Bytes} {c : ℕ}
    (h : c ∈ groups (data.length / 5) data ++ lastDigits (leftOver data)) : IsDigit c :=
  (List.mem_append.mp h).elim isDigit_of_mem_groups isDigit_of_mem_lastDigits

theorem encode_eq (data : Bytes) :
    encode data = groups (data.length / 5) data ++ lastDigits (leftOver data) := by
  unfold encode
  rw [b32encode_eq]
  exact rdropWhile_filled (fun c hc => isDigit_of_mem_body hc) _

theorem isDigit_of_mem_encode {data : Bytes} {c : ℕ} (h : c ∈ encode data) : IsDigit c := by
  rw [encode_eq] at h
  exact isDigit_of_mem_body h

theorem length_encode (data : Bytes) : (encode data).length = (8 * data.length + 4) / 5 := by
  have hleft := length_leftOver data
  rw [encode_eq, List.length_append, length_groups, length_lastDigits]
  by_cases hnil : leftOver data = []
  · rw [if_pos hnil]
    rw [hnil, List.length_nil] at hleft
    omega
  · have hpos : 0 < (leftOver data).length := List.length_pos_iff.mpr hnil
    rw [if_neg hnil]
    unfold filling
    split_ifs <;> omega

theorem decode_encode (data : Bytes) : decode (encode data) = some data := by
  have hleft := length_leftOver data
  have hlt : (leftOver data).length < 5 := by rw [hleft]; exact Nat.mod_lt _ (by decide)
  have hsplit : data.take (5 * (data.length / 5)) ++ leftOver data = data := List.take_append_drop _ _
  have hlast : (lastDigits (leftOver data)).length < 8 := by
    rw [length_lastDigits]
    by_cases hnil : leftOver data = []
    · rw [if_pos hnil]
      decide
    · rw [if_neg hnil]
      have hpos : 0 < (leftOver data).length := List.length_pos_iff.mpr hnil
      unfold filling
      split_ifs <;> omega
  have hbody : (encode data).length = 8 * (data.length / 5) + (lastDigits (leftOver data)).length := by
    rw [encode_eq, List.length_append, length_groups]
  have hfill : (8 - (encode data).length % 8) % 8 = filling (leftOver data).length := by
    rw [hbody, length_lastDigits]
    by_cases hnil : leftOver data = []
    · rw [if_pos hnil, hnil]
      unfold filling
      simp
    · have hpos : 0 < (leftOver data).length := List.length_pos_iff.mpr hnil
      rw [if_neg hnil]
      unfold filling
      split_ifs <;> omega
  have hascii : ((encode data ++ List.replicate (filling (leftOver data).length) pad).any
      fun c => 0x80 ≤ c) = false := by
    rw [List.any_eq_false]
    intro c hc
    rcases List.mem_append.mp hc with hc | hc
    · have hdigit := isDigit_of_mem_encode hc
      unfold IsDigit at hdigit
      simp only [decide_eq_true_eq]
      omega
    · rw [List.eq_of_mem_replicate hc]
      decide
  have hlen : (encode data ++ List.replicate (filling (leftOver data).length) pad).length % 8 = 0 := by
    rw [List.length_append, List.length_replicate, ← hfill]
    omega
  have hpads : (encode data ++ List.replicate (filling (leftOver data).length) pad).length -
      (encode data).length = filling (leftOver data).length := by
    rw [List.length_append, List.length_replicate, Nat.add_sub_cancel_left]
  have hgroups : (encode data).length / 8 = data.length / 5 := by rw [hbody]; omega
  have hread : readGroups (data.length / 5) (encode data) = some (data.take (5 * (data.length / 5))) := by
    rw [encode_eq]
    exact readGroups_groups _ (by omega)
  have hdrop : (encode data).drop (8 * (data.length / 5)) = lastDigits (leftOver data) := by
    rw [encode_eq, List.drop_left' (length_groups _ _)]
  unfold decode b32decode
  rw [hfill, hascii, if_neg (by decide), if_neg (by omega)]
  dsimp only
  rw [rdropWhile_filled fun c hc => isDigit_of_mem_encode hc, hpads, hgroups, hread, hdrop]
  by_cases hnil : leftOver data = []
  · rw [hnil] at hsplit ⊢
    rw [List.append_nil] at hsplit
    show some (data.take (5 * (data.length / 5))) = some data
    rw [hsplit]
  · obtain ⟨acc, hacc, htake⟩ := last_read hnil hlt
    have hpos : 0 < (leftOver data).length := List.length_pos_iff.mpr hnil
    have hin : filling (leftOver data).length ∈ [0, 1, 3, 4, 6] ∧ filling (leftOver data).length ≠ 0 := by
      unfold filling
      split_ifs <;> first | omega | decide
    rw [hacc]
    dsimp only
    rw [if_neg (not_not.mpr hin.1), if_neg hin.2, htake, hsplit]

end NMesh.Base.Base32
