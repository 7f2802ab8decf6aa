import NMesh.Base.Runs
import NMesh.Directory.Books

/-! # Renaming

What a node calls itself. `setPseudo` signs a claim to a name, later than the claim of its own that the book
holds and no earlier than the clock. The book forgets its own claim when the name is cleared, when others'
claims crowd it out, and when a restart finds an older file or none; then only the clock keeps the next
claim later than the last (`Ahead`). -/

namespace NMesh.Directory.Renaming

open Base.BigEndian Base.Utf8 Base.Runs NMesh.Cert.Identity
open NMesh.Directory NMesh.Directory.Name NMesh.Directory.Books
open NMesh.Directory.PseudoDir (Primitives Claim parseClaim buildClaim plain turning)

/-- The node's key pair. -/
structure Keys where
  pubkey : Bytes
  sign : Bytes → Bytes

/-- What a node knows of names, its own among them; the file its book was last saved to; and the claims it
has signed, with their bytes. -/
structure Namer where
  book : PseudoBook
  pseudo : Text
  claim : Option Bytes
  saved : List Bytes
  signed : List (Claim × Bytes)

variable (U : Unicode) (P : Primitives) (me : Keys)

def Keys.id (me : Keys) : NodeID := P.fromPublicKey me.pubkey

def maxStoredClaims : ℕ := 256

def tsOf (book : PseudoBook) (nodeId : NodeID) : Option ℕ := (book.entries.get? nodeId).map Entry.ts

/-- The timestamp of the next claim: the clock's, or one past the claim held. -/
def nextTs (previous : Option ℕ) (now : ℤ) : ℤ :=
  match previous with
  | none => now
  | some previous => if now ≤ previous then previous + 1 else now

/-- `not pseudo.strip()` -/
def blank (text : Text) : Bool := text.all U.isSpace

namespace Namer

def new (maxNodes maxBytes maxPerKey : ℤ) : Namer :=
  ⟨Book.new maxNodes maxBytes maxPerKey, [], none, [], []⟩

/-- Adopt a name and sign a fresh claim for it; a blank one drops the name. `none` where it raises. -/
def setPseudo (now : ℤ) (text : Text) (n : Namer) : Option Namer :=
  if blank U text then
    some { n with pseudo := [], claim := none, book := n.book.forget (me.id P) }
  else do
    let wanted ← canonical U text
    let raw ← buildClaim U P wanted me.pubkey me.sign (nextTs (tsOf n.book (me.id P)) now)
    let parsed ← parseClaim U P raw
    return { n with
      pseudo := wanted
      claim := some raw
      book := (PseudoBook.offer n.book parsed raw).2
      signed := n.signed ++ [(parsed, raw)] }

def receive (raw : Bytes) (n : Namer) : Namer :=
  { n with book := (Book.receive pseudoRules (readClaim U P) n.book raw).2 }

def writePseudos (n : Namer) : Namer :=
  { n with saved := (n.book.entries.values.map Entry.raw).rtake maxStoredClaims }

/-- Take back in one claim off the disk; our own restores the name. -/
def restore (n : Namer) (raw : Bytes) : Namer :=
  match parseClaim U P raw with
  | none => n
  | some claim =>
    let n := { n with book := (PseudoBook.offer n.book claim raw).2 }
    if claim.nodeId = me.id P then { n with pseudo := claim.pseudo, claim := some raw } else n

/-- The node starts again from its file, or from nothing if that cannot be read. -/
def restart (readable : Bool) (n : Namer) : Namer :=
  (if readable then (n.saved.take maxStoredClaims).filter (· ≠ []) else []).foldl (restore U P me)
    { n with
      book := Book.new n.book.maxEntries n.book.maxBytes n.book.maxPerKey
      pseudo := []
      claim := none }

end Namer

inductive Act
  | setPseudo (text : Text)
  | receive (raw : Bytes)
  | writePseudos
  | restart (readable : Bool)

def Namer.step (n : Namer) (act : ℤ × Act) : Namer :=
  match act.2 with
  | .setPseudo text => (n.setPseudo U P me act.1 text).getD n
  | .receive raw => n.receive U P raw
  | .writePseudos => n.writePseudos
  | .restart readable => n.restart U P me readable

/-! ### What the claims are to be -/

def Rising (signed : List (Claim × Bytes)) : Prop := signed.Pairwise fun a b => a.1.ts < b.1.ts

/-- The clock is past every claim signed, or the book holds one of ours that is no earlier. -/
def Ahead (n : Namer) (now : ℤ) : Prop :=
  ∀ c ∈ n.signed, (c.1.ts : ℤ) < now ∨ ∃ held, tsOf n.book (me.id P) = some held ∧ c.1.ts ≤ held

/-- A name is given that can be one, and its claim can be signed. -/
def Adopts (n : Namer) (now : ℤ) (text : Text) : Prop :=
  blank U text = false ∧ ∃ wanted raw parsed, canonical U text = some wanted ∧
    buildClaim U P wanted me.pubkey me.sign (nextTs (tsOf n.book (me.id P)) now) = some raw ∧
    parseClaim U P raw = some parsed

/-- Where a name is adopted, the clock or the book is past every claim signed. -/
def Moving (n : Namer) (act : ℤ × Act) : Prop :=
  ∀ text, act.2 = .setPseudo text → Adopts U P me n act.1 text → Ahead P me n act.1

/-- The second of two claims of the node, filed at a peer that holds the first, takes its place there and
proves nothing against the node. -/
def Replaces (a b : Claim × Bytes) : Prop :=
  ∀ peer : PseudoBook, peer.entries.get? (me.id P) = some (claimEntry a.1 a.2) →
    (PseudoBook.offer peer b.1 b.2).2.equivocations = peer.equivocations ∧
      ∀ e, (PseudoBook.offer peer b.1 b.2).2.entries.get? (me.id P) = some e →
        e = claimEntry b.1 b.2

/-! ### What an act signs -/

variable {U P me} {n : Namer} {act : ℤ × Act}

theorem signed_restore (n : Namer) (raw : Bytes) : (n.restore U P me raw).signed = n.signed := by
  unfold Namer.restore
  split
  · rfl
  · dsimp only
    split_ifs <;> rfl

theorem signed_restores : ∀ (raws : List Bytes) (n : Namer),
    (raws.foldl (Namer.restore U P me) n).signed = n.signed
  | [], _ => rfl
  | raw :: raws, n => (signed_restores raws _).trans (signed_restore n raw)

/-- **What an act signs**: one claim of the node's, of the next timestamp, where a name is adopted; else
nothing. -/
theorem step_cases (n : Namer) (act : ℤ × Act) :
    (∃ text c, act.2 = .setPseudo text ∧ Adopts U P me n act.1 text ∧
      (n.step U P me act).signed = n.signed ++ [c] ∧
      (c.1.ts : ℤ) = nextTs (tsOf n.book (me.id P)) act.1 ∧
      c.1.nodeId = me.id P ∧ c.2.length ≤ PseudoDir.maxClaim) ∨
    (∀ text, act.2 = .setPseudo text → ¬ Adopts U P me n act.1 text) ∧
      (n.step U P me act).signed = n.signed := by
  obtain ⟨now, act⟩ := act
  cases act with
  | setPseudo text =>
    show _ ∨ _ ∧ ((n.setPseudo U P me now text).getD n).signed = n.signed
    by_cases hadopts : Adopts U P me n now text
    · obtain ⟨hblank, wanted, raw, parsed, hwanted, hraw, hparsed⟩ := hadopts
      obtain ⟨hid, hts⟩ := PseudoDir.parseClaim_buildClaim hraw hparsed
      refine Or.inl ⟨text, (parsed, raw), rfl,
        ⟨hblank, wanted, raw, parsed, hwanted, hraw, hparsed⟩, ?_, hts, hid,
        (PseudoDir.parseClaim_spec hparsed).2.2⟩
      show ((n.setPseudo U P me now text).getD n).signed = _
      simp [Namer.setPseudo, hblank, hwanted, hraw, hparsed]
    · refine Or.inr ⟨fun text' htext => by cases htext; exact hadopts, ?_⟩
      unfold Namer.setPseudo
      split_ifs with hblank
      · rfl
      · cases hwanted : canonical U text with
        | none => rfl
        | some wanted =>
          cases hraw : buildClaim U P wanted me.pubkey me.sign
              (nextTs (tsOf n.book (me.id P)) now) with
          | none => simp [hraw]
          | some raw =>
            cases hparsed : parseClaim U P raw with
            | none => simp [hraw, hparsed]
            | some parsed =>
              exact absurd ⟨Bool.eq_false_iff.mpr hblank, wanted, raw, parsed, hwanted, hraw, hparsed⟩
                hadopts
  | receive raw => exact Or.inr ⟨(fun _ h => nomatch h), rfl⟩
  | writePseudos =>
    refine Or.inr ⟨(fun _ h => nomatch h), ?_⟩
    show n.writePseudos.signed = n.signed
    unfold Namer.writePseudos
    dsimp only
  | restart readable => exact Or.inr ⟨(fun _ h => nomatch h), signed_restores _ _⟩

/-! ### Rising claims -/

theorem rising_concat {signed : List (Claim × Bytes)} {c : Claim × Bytes} :
    Rising (signed ++ [c]) ↔ Rising signed ∧ ∀ a ∈ signed, a.1.ts < c.1.ts := by
  unfold Rising
  simp [List.pairwise_append]

theorem lt_nextTs {ts : ℕ} {previous : Option ℕ} {now : ℤ} :
    (ts : ℤ) < nextTs previous now ↔ (ts : ℤ) < now ∨ ∃ held, previous = some held ∧ ts ≤ held := by
  unfold nextTs
  cases previous with
  | none => simp
  | some held =>
    dsimp only
    split_ifs with hle
    · constructor
      · intro h
        exact Or.inr ⟨held, rfl, by omega⟩
      · rintro (h | ⟨held', he, h⟩)
        · omega
        · cases he
          omega
    · constructor
      · exact Or.inl
      · rintro (h | ⟨held', he, h⟩)
        · exact h
        · cases he
          omega

theorem rising_step (h : Rising n.signed) :
    Rising (n.step U P me act).signed ↔ Moving U P me n act := by
  rcases @step_cases U P me n act with
    ⟨text, c, htext, hadopts, hsigned, hts, -, -⟩ | ⟨hnone, hsigned⟩
  · rw [hsigned, rising_concat]
    have hahead : (∀ a ∈ n.signed, a.1.ts < c.1.ts) ↔ Ahead P me n act.1 := by
      refine forall₂_congr fun a _ => ?_
      rw [← lt_nextTs, ← hts]
      exact Int.ofNat_lt.symm
    rw [hahead]
    constructor
    · rintro ⟨-, hpast⟩ _ _ _
      exact hpast
    · intro hmoving
      exact ⟨h, hmoving text htext hadopts⟩
  · rw [hsigned]
    exact ⟨fun _ text htext hadopts => absurd hadopts (hnone text htext), fun _ => h⟩

theorem signed_prefix_step (n : Namer) (act : ℤ × Act) : n.signed <+: (n.step U P me act).signed := by
  rcases @step_cases U P me n act with ⟨_, c, -, -, hsigned, -⟩ | ⟨-, hsigned⟩
  · rw [hsigned]
    exact List.prefix_append _ _
  · exact hsigned ▸ List.prefix_rfl

theorem signed_prefix_run : ∀ (acts : List (ℤ × Act)) (n : Namer),
    n.signed <+: (run (Namer.step U P me) n acts).signed
  | [], _ => List.prefix_rfl
  | act :: acts, n => (signed_prefix_step n act).trans (signed_prefix_run acts _)

theorem rising_run : ∀ (acts : List (ℤ × Act)) {n : Namer}, Rising n.signed →
    (Rising (run (Namer.step U P me) n acts).signed ↔
      Guarded (Namer.step U P me) (Moving U P me) n acts)
  | [], _, h => ⟨fun _ => trivial, fun _ => h⟩
  | act :: acts, n, h => by
    rw [run_cons]
    by_cases hmoving : Moving U P me n act
    · have hnext := (@rising_step U P me _ _ h).mpr hmoving
      rw [rising_run acts hnext]
      exact ⟨fun hrest => ⟨hmoving, hrest⟩, fun hall => hall.2⟩
    · constructor
      · intro hrising
        exact absurd ((rising_step h).mp (hrising.sublist (signed_prefix_run acts _).sublist)) hmoving
      · intro hall
        exact absurd hall.1 hmoving

/-! ### At the peers -/

def Ours (P : Primitives) (me : Keys) (c : Claim × Bytes) : Prop :=
  c.1.nodeId = me.id P ∧ c.2.length ≤ PseudoDir.maxClaim

theorem ours_run (acts : List (ℤ × Act)) (h : ∀ c ∈ n.signed, Ours P me c) :
    ∀ c ∈ (run (Namer.step U P me) n acts).signed, Ours P me c := by
  refine run_induct (P := fun n : Namer => ∀ c ∈ n.signed, Ours P me c) (fun n act hn c hc => ?_) acts h
  rcases @step_cases U P me n act with
    ⟨_, c', -, -, hsigned, -, hid, hlen⟩ | ⟨-, hsigned⟩
  · rw [hsigned] at hc
    rcases List.mem_append.mp hc with hc | hc
    · exact hn c hc
    · rw [List.mem_singleton.mp hc]
      exact ⟨hid, hlen⟩
  · rw [hsigned] at hc
    exact hn c hc

theorem replaces_of_lt {a b : Claim × Bytes} (hb : Ours P me b) (hlt : a.1.ts < b.1.ts) :
    Replaces P me a b := by
  intro peer hheld
  obtain ⟨hid, hlen⟩ := hb
  unfold PseudoBook.offer
  rw [hid]
  rcases Book.offer_cases pseudoRules peer (me.id P) (claimEntry b.1 b.2) with
    ⟨hlong, -⟩ | ⟨-, hnone, -⟩ | ⟨current, noted, hnoted, -, hcurrent, hcase⟩
  · exact absurd hlen (Nat.not_le.mpr hlong)
  · rw [hheld] at hnone
    cases hnone
  · obtain rfl := Option.mem_unique hheld hcurrent
    rcases hcase with ⟨hle, -⟩ | ⟨-, b', hb', hoffer⟩
    · exact absurd hle (Nat.not_le.mpr hlt)
    · have hsame : noted = peer := by
        rw [hnoted]
        unfold Book.notes
        rw [if_neg fun hc => absurd hc.1 (Nat.ne_of_gt hlt)]
      rw [hoffer, hb']
      obtain ⟨hproofs, -, -, hkeeps⟩ :=
        Book.accept_keeps (noted.unindex (me.id P) (claimEntry a.1 a.2)) (me.id P) (claimEntry b.1 b.2)
      refine ⟨?_, fun e he => ?_⟩
      · rw [hproofs, hsame]
        rfl
      · rcases hkeeps _ e he with ⟨-, rfl⟩ | ⟨hne, -⟩
        · rfl
        · exact absurd rfl hne

/-- **A node that renames itself.** Its claims rise exactly if each act is moving; and where they rise, no
two of them are of one instant, and each replaces those before it at every peer. -/
theorem claims_rise (U : Unicode) (P : Primitives) (me : Keys) (start : Namer) (hstart : start.signed = [])
    (acts : List (ℤ × Act)) :
    let signed := (run (Namer.step U P me) start acts).signed
    (Rising signed ↔ Guarded (Namer.step U P me) (Moving U P me) start acts) ∧
      (Rising signed → (signed.map fun c => c.1.ts).Nodup ∧ signed.Pairwise (Replaces P me)) := by
  intro signed
  refine ⟨rising_run acts (by rw [hstart]; exact List.Pairwise.nil), fun hrising => ⟨?_, ?_⟩⟩
  · exact (List.pairwise_map.mpr hrising).imp fun h => Nat.ne_of_lt h
  · have hours := @ours_run U P me start acts (by rw [hstart]; simp)
    exact List.Pairwise.imp_of_mem (fun _ hb hlt => replaces_of_lt (hours _ hb) hlt) hrising

/-! ### A name cleared -/

def keys : Keys := ⟨[7], fun _ => []⟩

/-- At a clock that stands still, a name is adopted, cleared, and another adopted. -/
def cleared : List (ℤ × Act) :=
  [(5, .setPseudo (ascii "al")), (5, .setPseudo []), (5, .setPseudo (ascii "bo"))]

/-- **Two names for one instant.** -/
theorem cleared_equivocates : ¬ Rising (run (Namer.step plain turning keys)
    (Namer.new 1024 4194304 8) cleared).signed := by
  have hstamps : ((run (Namer.step plain turning keys) (Namer.new 1024 4194304 8) cleared).signed.map
      fun c => c.1.ts) = [5, 5] := by decide +kernel
  intro hrising
  have hlt := List.pairwise_map.mpr hrising
  rw [hstamps] at hlt
  exact absurd hlt (by decide)

theorem claims_rise_twice :
    Rising (run (Namer.step plain turning keys) (Namer.new 1024 4194304 8)
      [(5, .setPseudo (ascii "al")), (5, .setPseudo (ascii "bo"))]).signed := by
  refine (claims_rise plain turning keys (Namer.new 1024 4194304 8) rfl _).1.mpr ⟨?_, ?_, trivial⟩
  · intro text _ _ c hc
    cases hc
  · intro text _ _ c hc
    have hheld : tsOf ((Namer.new 1024 4194304 8).step plain turning keys
        (5, .setPseudo (ascii "al"))).book (keys.id turning) = some 5 := by decide +kernel
    have hstamps : (((Namer.new 1024 4194304 8).step plain turning keys
        (5, .setPseudo (ascii "al"))).signed.all fun c => decide (c.1.ts ≤ 5)) = true := by
      decide +kernel
    exact Or.inr ⟨5, hheld, of_decide_eq_true (List.all_eq_true.mp hstamps c hc)⟩

end NMesh.Directory.Renaming
