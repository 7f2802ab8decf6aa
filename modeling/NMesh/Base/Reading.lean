import NMesh.Base.BigEndian

/-! # Reading a byte string from an offset

`From data off rest` says what a parser with an offset into its data has before it: the data are `rest` from there
on. Where `rest` begins with a part that was written (`x ++ …`), the part fits (`From.fits`), is read back
(`From.slice`, `From.field`), and what follows it comes next (`From.next`). -/

namespace NMesh.Base.Reading

open Base.BigEndian

variable {data x rest : Bytes} {off n w : ℕ}

/-- **From `off` on, the data are `rest`.** -/
structure From (data : Bytes) (off : ℕ) (rest : Bytes) : Prop where
  le : off ≤ data.length
  drop : data.drop off = rest

theorem From.start (data : Bytes) : From data 0 data := ⟨Nat.zero_le _, rfl⟩

theorem From.fits (h : From data off (x ++ rest)) (hx : x.length = n) : off + n ≤ data.length := by
  have hlen := congrArg List.length h.drop
  rw [List.length_drop, List.length_append, hx] at hlen
  have hle := h.le
  omega

theorem From.next (h : From data off (x ++ rest)) (hx : x.length = n) : From data (off + n) rest :=
  ⟨h.fits hx, drop_of_drop h.drop hx⟩

theorem From.slice (h : From data off (x ++ rest)) (hx : x.length = n) : slice data off n = x :=
  slice_of_drop h.drop hx

theorem From.field (h : From data off (toBE w n ++ rest)) (hn : n < 256 ^ w) : field data off w = n :=
  field_of_drop h.drop hn

/-- From `off` on stand the number read there and what follows. -/
theorem drop_field (h : off + w ≤ data.length) :
    data.drop off = toBE w (field data off w) ++ data.drop (off + w) := by
  have hpart := toBE_ofBE (slice data off w)
  rw [length_slice h] at hpart
  rw [field, hpart, slice, ← List.drop_drop, List.take_append_drop]

theorem field_lt (h : off + w ≤ data.length) : field data off w < 256 ^ w := by
  have hlt := ofBE_lt (slice data off w)
  rwa [length_slice h] at hlt

end NMesh.Base.Reading
