import NMesh.Base.Reading
import Mathlib.Data.Option.Basic

/-! # The frame of a proof

A proof of equivocation is two signed records behind a header: version, kind and the two lengths. `build`
frames two records and `split` takes a frame apart. That goes wrong for one length only (`framed_iff`): the
lengths in the header have 16 bits, and the greatest length a record may have takes 17. -/

namespace NMesh.Directory.Equivocation

open Base.BigEndian Base.Reading

def version : ℕ := 1

/-- What the pair is made of. -/
inductive Kind
  | release
  | pseudo
  deriving DecidableEq

def Kind.code : Kind → ℕ
  | release => 1
  | pseudo => 2

def Kind.ofCode (n : ℕ) : Option Kind :=
  if n = 1 then some release else if n = 2 then some pseudo else none

def hdrSize : ℕ := 6

def maxRecord : ℕ := 64 * 1024

def maxProof : ℕ := hdrSize + 2 * maxRecord

/-- What `build` raises: an `EquivocationError` with its message, or what packing the header raises. -/
inductive BuildError
  | equivocation (message : String)
  | struct
  deriving DecidableEq

def refusal (record : Bytes) : Option BuildError :=
  if record = [] then some (.equivocation "record invalid")
  else if maxRecord < record.length then some (.equivocation "record too large")
  else none

/-- Frame two records. The lengths in the header have 16 bits. -/
def build (kind : Kind) (first second : Bytes) : Except BuildError Bytes :=
  match (refusal first).or (refusal second) with
  | some e => .error e
  | none =>
    if first.length < 2 ^ 16 ∧ second.length < 2 ^ 16 then
      .ok (toBE 1 version ++ (toBE 1 kind.code ++ (toBE 2 first.length ++ (toBE 2 second.length ++
        (first ++ second)))))
    else .error .struct

def split (data : Bytes) : Option (Kind × Bytes × Bytes) := do
  guard (hdrSize ≤ data.length ∧ data.length ≤ maxProof)
  guard (field data 0 1 = version)
  let kind ← Kind.ofCode (field data 1 1)
  let lenA := field data 2 2
  let lenB := field data 4 2
  guard (data.length = hdrSize + lenA + lenB ∧ lenA ≠ 0 ∧ lenB ≠ 0)
  return (kind, slice data hdrSize lenA, data.drop (hdrSize + lenA))

theorem Kind.ofCode_code (kind : Kind) : Kind.ofCode kind.code = some kind := by
  cases kind <;> rfl

theorem refusal_eq_none {record : Bytes} :
    refusal record = none ↔ record ≠ [] ∧ record.length ≤ maxRecord := by
  unfold refusal
  split_ifs with h1 h2
  · simp [h1]
  · simp [h2]
  · exact iff_of_true rfl ⟨h1, not_lt.mp h2⟩

theorem build_eq_ok {kind : Kind} {first second data : Bytes} : build kind first second = .ok data ↔
    (first ≠ [] ∧ first.length < 2 ^ 16) ∧ (second ≠ [] ∧ second.length < 2 ^ 16) ∧
      data = toBE 1 version ++ (toBE 1 kind.code ++ (toBE 2 first.length ++ (toBE 2 second.length ++
        (first ++ second)))) := by
  constructor
  · intro h
    unfold build at h
    split at h
    · cases h
    · rename_i hnone
      obtain ⟨hfirst, hsecond⟩ := Option.or_eq_none_iff.mp hnone
      split_ifs at h with hlen
      exact ⟨⟨(refusal_eq_none.mp hfirst).1, hlen.1⟩, ⟨(refusal_eq_none.mp hsecond).1, hlen.2⟩,
        (Except.ok.inj h).symm⟩
  · rintro ⟨⟨hfirst, hlen⟩, ⟨hsecond, hlen'⟩, rfl⟩
    have hmax : ∀ {record : Bytes}, record ≠ [] → record.length < 2 ^ 16 → refusal record = none :=
      fun h1 h2 => refusal_eq_none.mpr ⟨h1, by unfold maxRecord; omega⟩
    unfold build
    rw [hmax hfirst hlen, hmax hsecond hlen']
    exact if_pos ⟨hlen, hlen'⟩

theorem split_build {kind : Kind} {first second data : Bytes}
    (h : build kind first second = .ok data) : split data = some (kind, first, second) := by
  obtain ⟨⟨hfirst, hlen⟩, ⟨hsecond, hlen'⟩, hdata⟩ := build_eq_ok.mp h
  have hcode : kind.code < 256 ^ 1 := by cases kind <;> decide
  have hpos := List.length_pos_iff.mpr hfirst
  have hpos' := List.length_pos_iff.mpr hsecond
  have from0 : From data 0 (toBE 1 version ++ (toBE 1 kind.code ++ (toBE 2 first.length ++ (toBE 2 second.length ++
      (first ++ second))))) := hdata ▸ From.start _
  have from1 := from0.next (length_toBE ..)
  have from2 := from1.next (length_toBE ..)
  have from4 := from2.next (length_toBE ..)
  have from6 := from4.next (length_toBE ..)
  have hlength : data.length = hdrSize + first.length + second.length := by
    have hlength := congrArg List.length from0.drop
    simp only [List.drop_zero, List.length_append, length_toBE] at hlength
    unfold hdrSize
    omega
  have h0 : field data 0 1 = version := from0.field (by decide)
  have h1 : field data 1 1 = kind.code := from1.field hcode
  have h2 : field data 2 2 = first.length := from2.field (by omega)
  have h4 : field data 4 2 = second.length := from4.field (by omega)
  have hslice : slice data hdrSize first.length = first := from6.slice rfl
  have hdrop : data.drop (hdrSize + first.length) = second := (from6.next rfl).drop
  have hmax : data.length ≤ maxProof := by
    rw [hlength]; unfold maxProof maxRecord; omega
  have hmin : hdrSize ≤ data.length := by omega
  simp only [split, h0, h1, h2, h4, Kind.ofCode_code, hslice, hdrop, Option.bind_eq_bind,
    Option.bind_eq_some_iff, Option.guard_eq_some']
  exact ⟨(), ⟨hmin, hmax⟩, (), trivial, kind, rfl, (), ⟨hlength, hpos.ne', hpos'.ne'⟩, rfl⟩

/-- What framing two records should do: give a frame that is taken apart into them, or raise an
`EquivocationError`, and that only where a record is too long. -/
def Framed (kind : Kind) (first second : Bytes) : Prop :=
  (∃ data, build kind first second = .ok data ∧ split data = some (kind, first, second)) ∨
    (∃ message, build kind first second = .error (.equivocation message)) ∧
      (maxRecord < first.length ∨ maxRecord < second.length)

theorem refusal_of_long {record : Bytes} (h : maxRecord < record.length) :
    refusal record = some (.equivocation "record too large") := by
  unfold refusal
  rw [if_neg (by rintro rfl; exact absurd h (by decide)), if_pos h]

/-- **Framing does what it should**, for records that are not empty, exactly if one is longer than a record
may be or both are shorter: a record of just the greatest length has no length field. -/
theorem framed_iff (kind : Kind) (first second : Bytes) (hfirst : first ≠ []) (hsecond : second ≠ []) :
    Framed kind first second ↔
      (maxRecord < first.length ∨ maxRecord < second.length) ∨
        (first.length < maxRecord ∧ second.length < maxRecord) := by
  by_cases hlong : maxRecord < first.length ∨ maxRecord < second.length
  · refine iff_of_true (Or.inr ⟨⟨"record too large", ?_⟩, hlong⟩) (Or.inl hlong)
    unfold build
    by_cases hl : maxRecord < first.length
    · rw [refusal_of_long hl]
      rfl
    · rw [refusal_eq_none.mpr ⟨hfirst, not_lt.mp hl⟩, refusal_of_long (hlong.resolve_left hl)]
      rfl
  · obtain ⟨hl, hl'⟩ := not_or.mp hlong
    have hnone : (refusal first).or (refusal second) = none := by
      rw [refusal_eq_none.mpr ⟨hfirst, not_lt.mp hl⟩, refusal_eq_none.mpr ⟨hsecond, not_lt.mp hl'⟩]
      rfl
    have hbuild : build kind first second =
        if first.length < 2 ^ 16 ∧ second.length < 2 ^ 16 then
          .ok (toBE 1 version ++ (toBE 1 kind.code ++ (toBE 2 first.length ++ (toBE 2 second.length ++
            (first ++ second)))))
        else .error .struct := by
      unfold build
      rw [hnone]
    unfold Framed
    constructor
    · rintro (⟨data, hok, -⟩ | ⟨-, hl'⟩)
      · obtain ⟨⟨-, h1⟩, ⟨-, h2⟩, -⟩ := build_eq_ok.mp hok
        exact Or.inr ⟨h1, h2⟩
      · exact absurd hl' hlong
    · intro h
      have hshort := h.resolve_left hlong
      exact Or.inl ⟨_, hbuild.trans (if_pos hshort), split_build (hbuild.trans (if_pos hshort))⟩

theorem framed_short : Framed .pseudo [1] [2] :=
  (framed_iff .pseudo [1] [2] (by decide) (by decide)).mpr (Or.inr (by decide))

/-- A record of just the greatest length is refused by neither check, and packing its length raises. -/
theorem build_greatest : build .pseudo (List.replicate maxRecord 0) [1] = .error .struct ∧
    ¬ Framed .pseudo (List.replicate maxRecord 0) [1] := by
  have hlen : (List.replicate maxRecord (0 : UInt8)).length = maxRecord := List.length_replicate
  have hne : List.replicate maxRecord (0 : UInt8) ≠ [] := by
    refine List.ne_nil_of_length_pos ?_
    rw [hlen]
    decide
  constructor
  · unfold build
    rw [refusal_eq_none.mpr ⟨hne, hlen.le⟩, refusal_eq_none.mpr ⟨by decide, by decide⟩, hlen]
    rfl
  · rw [framed_iff .pseudo _ _ hne (by decide), hlen]
    decide

end NMesh.Directory.Equivocation
