import NMesh.Base.JsonSize
import Mathlib.Data.List.Chain

/-! # Values that come back from JSON as they went

A text is steady if no two of its characters make a surrogate pair; a value is, if its strings are, no key comes
twice, and it is written in ASCII. What is made of steady parts is steady.

* `loads_blob`: a steady value is read from its bytes;
* `decode_take`: what is cut off its bytes is cut off its text;
* `sum_le_write_obj`: an object is at least as long as its members together. -/

namespace NMesh.Base.JsonSteady

open Base.Utf8 Base.Ordered Base.JsonText Base.JsonRound
open Base.JsonStyle Base.JsonSize

/-! ### Texts -/

def Apart (c d : ℕ) : Prop := ¬ (isHigh c = true ∧ isLow d = true)

/-- **A text that JSON gives back.** -/
structure Steady (s : Text) : Prop where
  points : Points s
  apart : s.IsChain Apart

theorem merge_of_apart : ∀ {s : Text}, s.IsChain Apart → merge s = s
  | [], _ => rfl
  | [_], _ => rfl
  | c :: d :: s, h => by
    rw [List.isChain_cons_cons] at h
    rw [merge, if_neg h.1, merge_of_apart h.2]

theorem Steady.merge {s : Text} (h : Steady s) : merge s = s := merge_of_apart h.apart

theorem apart_of_scalar {c : ℕ} (h : Scalar c) (d : ℕ) : Apart c d := by
  rintro ⟨hhigh, -⟩
  have := of_decide_eq_true hhigh
  unfold Scalar at h
  omega

theorem steady_of_scalars {s : Text} (h : ∀ c ∈ s, Scalar c) : Steady s := by
  refine ⟨points_of_scalars h, ?_⟩
  induction s with
  | nil => exact List.isChain_nil
  | cons c s ih =>
    rw [List.isChain_cons]
    exact ⟨fun d _ => apart_of_scalar (h c List.mem_cons_self) d, ih fun d hd => h d (List.mem_cons_of_mem c hd)⟩

theorem steady_of_ascii {s : Text} (h : Ascii s) : Steady s :=
  steady_of_scalars fun c hc => Or.inl (by have := h c hc; omega)

theorem Steady.take {s : Text} (h : Steady s) (n : ℕ) : Steady (s.take n) :=
  ⟨fun c hc => h.points c (List.mem_of_mem_take hc), h.apart.take n⟩

/-! ### Values -/

variable {floatRepr : Text → Text} {S : Style}

/-- **A value that JSON gives back.** -/
structure SteadyValue (floatRepr : Text → Text) (S : Style) (v : Json) : Prop where
  plain : Plain floatRepr v
  settled : settle v = v
  ascii : Ascii (write S v)

theorem steady_null : SteadyValue floatRepr S .null :=
  ⟨trivial, rfl, (by decide : Ascii (ascii "null"))⟩

theorem steady_bool (b : Bool) : SteadyValue floatRepr S (.bool b) := ⟨trivial, rfl, ascii_write_bool b⟩

theorem steady_float {repr : Text} (hrepr : FloatText floatRepr repr) (hascii : Ascii (dumpFloat repr)) :
    SteadyValue floatRepr S (.float repr) := ⟨hrepr, rfl, hascii⟩

theorem steady_arr {items : List Json} (h : ∀ v ∈ items, SteadyValue floatRepr S v) :
    SteadyValue floatRepr S (.arr items) := by
  refine ⟨plainItems_iff.mpr fun v hv => (h v hv).plain, ?_, ascii_write_arr fun v hv => (h v hv).ascii⟩
  rw [settle, settleItems_eq, List.map_congr_left fun v hv => (h v hv).settled, List.map_id']

section Ascii

variable (hS : S.ensureAscii = true)
include hS

theorem steady_str {s : Text} (h : Steady s) : SteadyValue floatRepr S (.str s) :=
  ⟨h.points, by rw [settle, h.merge], ascii_writeString hS h.points⟩

theorem steady_obj {d : Dict Text Json} (h : ∀ e ∈ d.entries, Steady e.1 ∧ SteadyValue floatRepr S e.2) :
    SteadyValue floatRepr S (.obj d.entries) := by
  refine ⟨plainMembers_iff.mpr fun e he => ⟨(h e he).1.points, (h e he).2.plain⟩, ?_,
    ascii_write_obj hS fun e he => ⟨(h e he).1.points, (h e he).2.ascii⟩⟩
  rw [settle_apart (fun e he => (h e he).1.merge) d.nodup]
  have hsame : d.entries.map (fun e => (e.1, settle e.2)) = d.entries.map id :=
    List.map_congr_left fun e he => Prod.ext rfl (h e he).2.settled
  rw [hsame, List.map_id]

theorem loads_blob {v : Json} {depth : ℕ} (h : SteadyValue floatRepr S v) (hd : height v ≤ depth) :
    (decodeUtf8 (blob S v)).bind (loads floatRepr depth) = some v := by
  rw [decode_encode (encode_blob h.ascii), Option.bind_some, loads_write hS h.plain hd, h.settled]

end Ascii

/-! ### Parts of what is written -/

theorem encode_take {text : Text} (h : Ascii text) (n : ℕ) :
    encodeUtf8 (text.take n) = some (((encodeUtf8 text).getD []).take n) := by
  rw [encode_ascii h, encode_ascii fun c hc => h c (List.mem_of_mem_take hc), Option.getD_some, List.map_take]

theorem decode_take {v : Json} (h : Ascii (write S v)) (n : ℕ) :
    decodeUtf8 ((blob S v).take n) = some ((write S v).take n) := decode_encode (encode_take h n)

theorem blob_ne_nil {v : Json} (h : Ascii (write S v)) (hv : write S v ≠ []) : blob S v ≠ [] := by
  intro hnil
  have hlen := length_blob h
  rw [hnil, List.length_nil] at hlen
  exact hv (List.length_eq_zero_iff.mp hlen.symm)

theorem sum_le_writeMembers (members : List (Text × Json)) :
    (members.map fun e => (write S e.2).length).sum ≤ (writeMembers S members).length := by
  induction members with
  | nil => exact Nat.zero_le _
  | cons e members ih =>
    obtain ⟨key, value⟩ := e
    simp only [writeMembers, List.map_cons, List.sum_cons, List.length_cons, List.length_append]
    omega

theorem sum_le_write_obj (members : List (Text × Json)) :
    (members.map fun e => (write S e.2).length).sum ≤ (write S (.obj members)).length := by
  cases members with
  | nil => exact Nat.zero_le _
  | cons e members =>
    obtain ⟨key, value⟩ := e
    have := sum_le_writeMembers (S := S) members
    simp only [write, List.map_cons, List.sum_cons, List.length_cons, List.length_append]
    omega

end NMesh.Base.JsonSteady
