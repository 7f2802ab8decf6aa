import NMesh.Base.JsonStyle

/-! # How long JSON is

What is written with `ensure_ascii` is ASCII, so that its bytes are as many as its characters (`length_blob`), and
no character of a string takes more than twelve of them. A list takes at least what its items take. -/

namespace NMesh.Base.JsonSize

open Base.BigEndian Base.Utf8 Base.JsonText Base.JsonRound
open Base.JsonStyle

/-! ### ASCII -/

instance (text : Text) : Decidable (Ascii text) := inferInstanceAs (Decidable (∀ c ∈ text, c < 0x80))

theorem ascii_dumpInt (n : ℤ) : Ascii (dumpInt n) := by
  have hdigits : ∀ k, Ascii (digits k) := by
    intro k c hc
    obtain ⟨_, _, -, -, hall⟩ := digits_shape k
    have hc := of_decide_eq_true (hall c hc)
    omega
  unfold dumpInt
  split_ifs
  · exact ascii_cons.mpr ⟨by decide, hdigits _⟩
  · exact hdigits _

section Written

variable {S : Style}

theorem ascii_writeItems : ∀ {items : List Json}, (∀ v ∈ items, Ascii (write S v)) → Ascii (writeItems S items)
  | [], _ => by
    rw [writeItems, ascii_cons]
    exact ⟨by decide, fun c hc => by cases hc⟩
  | item :: items, h => by
    simp only [writeItems, ascii_cons, ascii_append]
    exact ⟨by decide, ascii_blanks _, h item List.mem_cons_self,
      ascii_writeItems fun v hv => h v (List.mem_cons_of_mem item hv)⟩

theorem ascii_write_arr {items : List Json} (h : ∀ v ∈ items, Ascii (write S v)) :
    Ascii (write S (.arr items)) := by
  match items, h with
  | [], _ =>
    rw [write, ascii_cons, ascii_cons]
    exact ⟨by decide, by decide, fun c hc => by cases hc⟩
  | item :: items, h =>
    simp only [write, ascii_cons, ascii_append]
    exact ⟨by decide, h item List.mem_cons_self,
      ascii_writeItems fun v hv => h v (List.mem_cons_of_mem item hv)⟩

theorem ascii_write_bool (b : Bool) : Ascii (write S (.bool b)) := by
  cases b with
  | false => exact (by decide : Ascii (ascii "false"))
  | true => exact (by decide : Ascii (ascii "true"))

/-! ### Lengths -/

/-- The bytes of a text that is written. -/
def blob (S : Style) (v : Json) : Bytes := (encodeUtf8 (write S v)).getD []

theorem encode_blob {v : Json} (h : Ascii (write S v)) : encodeUtf8 (write S v) = some (blob S v) := by
  rw [blob, encode_ascii h]
  rfl

theorem length_blob {v : Json} (h : Ascii (write S v)) : (blob S v).length = (write S v).length := by
  rw [blob, encode_ascii h]
  exact List.length_map _

variable (hS : S.ensureAscii = true)
include hS

theorem length_escape_le (c : ℕ) : (S.escape c).length ≤ 12 := by
  rw [Style.escape, if_pos hS]
  unfold JsonText.escape
  have hhex : ∀ n, (hex4 n).length = 4 := fun _ => rfl
  split_ifs <;> simp [hhex]

theorem length_writeString_le (s : Text) : (writeString S s).length ≤ 12 * s.length + 2 := by
  have hbody : (s.flatMap S.escape).length ≤ 12 * s.length := by
    induction s with
    | nil => exact Nat.le_refl 0
    | cons c s ih =>
      have hc := length_escape_le hS c
      rw [List.flatMap_cons, List.length_append, List.length_cons]
      omega
  rw [writeString, List.length_cons, List.length_append, List.length_singleton]
  omega

omit hS

theorem length_dumpInt {n k : ℕ} (hk : 0 < k) (h : n < 10 ^ k) : (dumpInt n).length ≤ k := by
  unfold dumpInt
  rw [if_neg (by omega), Int.natAbs_natCast]
  exact length_digits hk h

theorem sum_le_writeItems (items : List Json) :
    (items.map fun v => (write S v).length).sum ≤ (writeItems S items).length := by
  induction items with
  | nil => exact Nat.zero_le _
  | cons item items ih =>
    rw [List.map_cons, List.sum_cons, writeItems, List.length_cons, List.length_append, List.length_append]
    omega

theorem sum_le_write_arr (items : List Json) :
    (items.map fun v => (write S v).length).sum ≤ (write S (.arr items)).length := by
  cases items with
  | nil => exact Nat.zero_le _
  | cons item items =>
    have hrest := sum_le_writeItems (S := S) items
    rw [List.map_cons, List.sum_cons, write, List.length_cons, List.length_append]
    omega

theorem length_writeItems_le {b : ℕ} : ∀ {items : List Json}, (∀ v ∈ items, (write S v).length ≤ b) →
    (writeItems S items).length ≤ 1 + items.length * (b + 1 + S.itemBlanks)
  | [], _ => Nat.le_add_right _ _
  | item :: items, h => by
    have hitem := h item List.mem_cons_self
    have ih := length_writeItems_le fun v hv => h v (List.mem_cons_of_mem item hv)
    rw [writeItems, List.length_cons, List.length_append, List.length_append, blanks, List.length_replicate,
      List.length_cons, Nat.succ_mul]
    omega

theorem length_write_arr_le {b : ℕ} {items : List Json} (h : ∀ v ∈ items, (write S v).length ≤ b) :
    (write S (.arr items)).length ≤ 2 + items.length * (b + 1 + S.itemBlanks) := by
  cases items with
  | nil => exact Nat.le_add_right _ _
  | cons item items =>
    have hitem := h item List.mem_cons_self
    have hrest := length_writeItems_le fun v hv => h v (List.mem_cons_of_mem item hv)
    rw [write, List.length_cons, List.length_append, List.length_cons, Nat.succ_mul]
    omega

end Written

end NMesh.Base.JsonSize
