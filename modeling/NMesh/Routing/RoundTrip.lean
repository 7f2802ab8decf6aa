import NMesh.Routing.Found
import Mathlib.Data.List.Forall2

/-! # An answer reads back

`Packed` says what a packer holds: a list of distinct certificates, each packed in the pool, and the
accepted entries, their chains written as indices into that list. Every `add` keeps it (`Packed.add`), and
whatever stands behind such an answer, `decodeEntries` reads the accepted entries out of it
(`decode_encode`). -/

namespace NMesh.Routing.RoundTrip

open Base.BigEndian Base.Utf8 Base.Ordered Base.Reading NMesh.Cert.Identity
open NMesh.Cert.Wire NMesh.Routing.Address NMesh.Routing.Found Packer

variable {K : Crypto} {sha256 : Bytes → Bytes} {known : Finset Bytes}
variable {resolve : Bytes → Option (Certificate K)} {data rest : Bytes} {off : ℕ}

/-! ### The parts of an answer -/

variable {b : Bytes}

theorem decodePool_succ (hlen : ∀ b, (sha256 b).length = 32) {c : Certificate K}
    (hpack : packCert sha256 known c = some b)
    (hresolve : fingerprint sha256 c ∈ known → resolve (fingerprint sha256 c) = some c) (n : ℕ)
    (h : From data off (b ++ rest)) : decodePool resolve data (n + 1) off =
      (decodePool resolve data n (off + b.length)).map fun r => (some c :: r.1, r.2) := by
  unfold packCert at hpack
  rw [decodePool]
  by_cases hknown : fingerprint sha256 c ∈ known
  · rw [if_pos hknown] at hpack
    cases hpack
    have hfp : (fingerprint sha256 c).length = fingerprintLen := by
      unfold fingerprint fingerprintLen
      rw [List.length_take, hlen]
      omega
    rw [List.append_assoc] at h
    have hnext := h.next (length_toBE 2 _)
    have h1 := h.fits (length_toBE 2 _)
    have h2 := hnext.fits hfp
    rw [if_neg (by omega)]
    dsimp only
    rw [h.field (by decide), if_pos rfl, if_neg (by omega), hnext.slice hfp, hresolve hknown,
      List.length_append, length_toBE, hfp, Nat.add_assoc]
  · rw [if_neg hknown] at hpack
    cases hraw : serialize c with
    | none => rw [hraw] at hpack; cases hpack
    | some raw =>
      rw [hraw] at hpack
      dsimp only at hpack
      split_ifs at hpack with hshort
      cases hpack
      obtain ⟨hread, hheader⟩ := deserialize_serialize hraw
      rw [List.append_assoc] at h
      have hnext := h.next (length_toBE 2 _)
      have h1 := h.fits (length_toBE 2 _)
      have h2 := hnext.fits rfl
      have hnonzero : raw.length ≠ certRef := by
        unfold headerLen at hheader
        unfold certRef
        omega
      rw [if_neg (by omega)]
      dsimp only
      rw [h.field hshort, if_neg hnonzero, if_neg (by omega), hnext.slice rfl, hread,
        List.length_append, length_toBE, Nat.add_assoc]
      rfl

variable {cs : List (Certificate K)}

theorem decodePool_spec (hlen : ∀ b, (sha256 b).length = 32)
    {bs : List Bytes} (hpack : List.Forall₂ (fun c b => packCert sha256 known c = some b) cs bs) :
    ∀ {off : ℕ}, (∀ c ∈ cs, fingerprint sha256 c ∈ known → resolve (fingerprint sha256 c) = some c) →
      From data off (bs.flatten ++ rest) →
      decodePool resolve data bs.length off = .ok (cs.map some, off + bs.flatten.length) := by
  induction hpack with
  | nil => exact fun _ _ => rfl
  | cons hb _ ih =>
    intro off hresolve h
    rw [List.flatten_cons, List.append_assoc] at h
    rw [List.length_cons, decodePool_succ hlen hb (hresolve _ List.mem_cons_self) _ h,
      ih (fun c hc => hresolve c (List.mem_cons_of_mem _ hc)) (h.next rfl), List.flatten_cons,
      List.length_append, Nat.add_assoc]
    rfl

def Valid (addr : Text) : Prop := ∃ scheme opaqueness, validateUri addr = .valid scheme opaqueness

theorem Valid.encodes {addr : Text} (h : Valid addr) :
    ∃ b, encodeUtf8 addr = some b ∧ b.length ≤ maxUriLen := by
  obtain ⟨scheme, opaqueness, hvalid⟩ := h
  unfold validateUri at hvalid
  cases henc : encodeUtf8 addr with
  | none => rw [henc] at hvalid; cases hvalid
  | some b =>
    rw [henc] at hvalid
    dsimp only at hvalid
    split_ifs at hvalid with hlong
    exact ⟨b, rfl, not_lt.mp hlong⟩

theorem decodeAddress_spec {addr : Text} (h : Valid addr) (henc : encodeUtf8 addr = some b) :
    decodeAddress b.length b = (addr, true) := by
  obtain ⟨b', henc', hle⟩ := h.encodes
  obtain rfl : b = b' := Option.mem_unique henc henc'
  obtain ⟨scheme, opaqueness, hvalid⟩ := h
  unfold decodeAddress
  rw [decode_encode henc]
  dsimp only
  rw [hvalid]
  dsimp only
  rw [decide_eq_true hle]

theorem decodeAddresses_spec : ∀ {addrs : List Text} {packed : Bytes} {off : ℕ},
    packAddresses addrs = some packed → (∀ a ∈ addrs, Valid a) → From data off (packed ++ rest) →
    decodeAddresses data addrs.length off = .ok (addrs, true, off + packed.length)
  | [], packed, off, hpack, _, _ => by
    cases hpack
    rfl
  | addr :: addrs, packed, off, hpack, hvalid, h => by
    rw [packAddresses] at hpack
    cases henc : encodeUtf8 addr with
    | none => rw [henc] at hpack; cases hpack
    | some b =>
      rw [henc] at hpack
      dsimp only at hpack
      split_ifs at hpack with hshort
      obtain ⟨more, hmore, rfl⟩ := Option.map_eq_some_iff.mp hpack
      rw [List.append_assoc, List.append_assoc] at h
      have hnext := h.next (length_toBE 2 _)
      have hbehind := hnext.next rfl
      have h1 := h.fits (length_toBE 2 _)
      have h2 := hnext.fits rfl
      rw [List.length_cons, decodeAddresses, if_neg (by omega)]
      dsimp only
      rw [h.field hshort, if_neg (by omega), hnext.slice rfl,
        decodeAddress_spec (hvalid addr List.mem_cons_self) henc,
        decodeAddresses_spec hmore (fun a ha => hvalid a (List.mem_cons_of_mem _ ha)) hbehind,
        List.length_append, List.length_append, length_toBE]
      show Except.ok (addr :: addrs, true, _) = Except.ok (addr :: addrs, true, _)
      rw [Nat.add_assoc, Nat.add_assoc, Nat.add_assoc]

theorem decodeChain_spec (hsmall : cs.length ≤ entryPoolMax) :
    ∀ {idxs : List ℕ} {chain : List (Certificate K)} {off : ℕ},
      idxs.map (cs[·]?) = chain.map some → From data off (idxs.flatMap (toBE 2) ++ rest) →
      decodeChain data (cs.map some) idxs.length off = .ok (some chain, off + 2 * idxs.length)
  | [], chain, off, hmap, _ => by
    obtain rfl : chain = [] := List.map_eq_nil_iff.mp hmap.symm
    rfl
  | i :: idxs, chain, off, hmap, h => by
    cases chain with
    | nil => cases hmap
    | cons c chain =>
      rw [List.map_cons, List.map_cons] at hmap
      obtain ⟨hi, hmap'⟩ := List.cons.inj hmap
      rw [List.flatMap_cons, List.append_assoc] at h
      have hfits := h.fits (length_toBE 2 _)
      have hlt : i < 256 ^ 2 := by
        have := (List.getElem?_eq_some_iff.mp hi).1
        unfold entryPoolMax at hsmall
        omega
      have hcert : (cs.map some)[i]? = some (some c) := by rw [List.getElem?_map, hi]; rfl
      rw [List.length_cons, decodeChain, if_neg (by omega), h.field hlt, hcert]
      dsimp only
      rw [decodeChain_spec hsmall hmap' (h.next (length_toBE 2 _))]
      show Except.ok (_, _) = Except.ok (_, _)
      rw [Nat.mul_add, Nat.mul_one, ← Nat.add_assoc, Nat.add_right_comm]
      rfl

/-! ### Entries -/

def listed (e : NodeEntry K) : NodeEntry K :=
  { e with addresses := e.addresses.take maxAddresses, dsaPub := [] }

/-- The bytes of an entry: its chain as indices into `cs`. -/
def Encoded (cs : List (Certificate K)) (e : NodeEntry K) (b : Bytes) : Prop :=
  ∃ (packed : Bytes) (idxs : List ℕ), packAddresses (e.addresses.take maxAddresses) = some packed ∧
    e.certChain.length ≤ entryChainMax ∧ idxs.map (cs[·]?) = e.certChain.map some ∧
    b = e.nodeId.raw ++ toBE 1 (e.addresses.take maxAddresses).length ++ toBE 1 e.certChain.length ++
      packed ++ idxs.flatMap (toBE 2)

theorem length_indices (idxs : List ℕ) : (idxs.flatMap (toBE 2)).length = 2 * idxs.length := by
  induction idxs with
  | nil => rfl
  | cons i idxs ih =>
    rw [List.flatMap_cons, List.length_append, length_toBE, ih, List.length_cons]
    omega

theorem decodeEntry_spec (hsmall : cs.length ≤ entryPoolMax) {e : NodeEntry K}
 (he : Encoded cs e b) (hvalid : ∀ a ∈ e.addresses, Valid a) (h : From data off (b ++ rest)) :
    decodeEntry data (cs.map some) off = .ok (some (listed e), off + b.length) := by
  obtain ⟨packed, idxs, hpacked, hchain, hmap, rfl⟩ := he
  have hidxs : idxs.length = e.certChain.length := by
    have := congrArg List.length hmap
    rwa [List.length_map, List.length_map] at this
  have haddrs : (e.addresses.take maxAddresses).length ≤ maxAddresses := List.length_take_le _ _
  have hmax : maxAddresses = 8 ∧ entryChainMax = 6 := ⟨rfl, rfl⟩
  simp only [List.append_assoc] at h
  have h20 := h.next e.nodeId.len
  have h21 := h20.next (length_toBE 1 _)
  have h22 := h21.next (length_toBE 1 _)
  have hrefs := h22.next rfl
  have hfits := h21.fits (length_toBE 1 _)
  have hcount : field data (off + 20) 1 = (e.addresses.take maxAddresses).length :=
    h20.field (by omega)
  have hlength : field data (off + 21) 1 = e.certChain.length :=
    h21.field (by omega)
  unfold decodeEntry entryHeaderLen
  rw [if_neg (by omega)]
  dsimp only
  rw [hcount, hlength, if_neg (by omega), if_neg (by omega),
    decodeAddresses_spec hpacked (fun a ha => hvalid a (List.mem_of_mem_take ha)) h22]
  have hread : decodeChain data (cs.map some) e.certChain.length (off + 20 + 1 + 1 + packed.length) =
      .ok (some e.certChain, off + 20 + 1 + 1 + packed.length + 2 * idxs.length) := by
    rw [← hidxs]
    exact decodeChain_spec hsmall hmap hrefs
  show Except.bind (decodeChain data (cs.map some) e.certChain.length (off + 22 + packed.length)) _ = _
  rw [hread]
  simp only [Except.bind, if_true, h.slice e.nodeId.len, NodeID.ofRaw_raw, Option.getD_some]
  have hend : off + 20 + 1 + 1 + packed.length + 2 * idxs.length =
      off + (e.nodeId.raw ++ toBE 1 (e.addresses.take maxAddresses).length ++
        toBE 1 e.certChain.length ++ packed ++ idxs.flatMap (toBE 2)).length := by
    simp only [List.length_append, length_toBE, e.nodeId.len, length_indices]
    omega
  rw [hend]
  rfl

theorem decodeMany_spec (hsmall : cs.length ≤ entryPoolMax)
    {es : List (NodeEntry K)} {bs : List Bytes} (hes : List.Forall₂ (Encoded cs) es bs) :
    ∀ {off : ℕ}, (∀ e ∈ es, ∀ a ∈ e.addresses, Valid a) → From data off (bs.flatten ++ rest) →
      decodeMany data (cs.map some) bs.length off = .ok (es.map listed, off + bs.flatten.length) := by
  induction hes with
  | nil => exact fun _ _ => rfl
  | cons he _ ih =>
    intro off hvalid h
    rw [List.flatten_cons, List.append_assoc] at h
    rw [List.length_cons, decodeMany, decodeEntry_spec hsmall he (hvalid _ List.mem_cons_self) h]
    show Except.map _ (decodeMany data (cs.map some) _ _) = _
    rw [ih (fun e' he' => hvalid e' (List.mem_cons_of_mem _ he')) (h.next rfl), List.flatten_cons,
      List.length_append, ← Nat.add_assoc]
    rfl

/-! ### What a packer holds -/

/-- A row of the pool for a certificate: its fingerprint and its bytes. -/
def Row (sha256 : Bytes → Bytes) (known : Finset Bytes) (c : Certificate K) (row : Bytes × Bytes) : Prop :=
  row.1 = fingerprint sha256 c ∧ packCert sha256 known c = some row.2

def Indexed (sha256 : Bytes → Bytes) (cs : List (Certificate K)) (index : Dict Bytes ℕ) : Prop :=
  ∀ d i, index.get? d = some i → ∃ c, cs[i]? = some c ∧ fingerprint sha256 c = d

/-- **A packer holds the certificates `cs`, all among `U`, and the accepted entries `es`.** -/
structure Packed (sha256 : Bytes → Bytes) (U : Set (Certificate K)) (p : Packer)
    (cs : List (Certificate K)) (es : List (NodeEntry K)) : Prop where
  pool : List.Forall₂ (fun c b => packCert sha256 p.known c = some b) cs p.pool
  inside : ∀ c ∈ cs, c ∈ U
  index : Indexed sha256 cs p.index
  small : cs.length ≤ entryPoolMax
  few : es.length ≤ entryCountMax
  entries : List.Forall₂ (Encoded cs) es p.entries
  used : p.used = 3 + p.pool.flatten.length + p.entries.flatten.length
  within : (p.used : ℤ) ≤ max p.budget 3

variable {U : Set (Certificate K)} {p : Packer} {cs news : List (Certificate K)}
variable {es : List (NodeEntry K)} {e : NodeEntry K}

theorem packed_new (budget : ℤ) : Packed sha256 U (Packer.new budget known) [] [] where
  pool := List.Forall₂.nil
  inside := fun _ hc => absurd hc List.not_mem_nil
  index := fun d i h => by
    have hnone : (Dict.empty : Dict Bytes ℕ).get? d = some i := h
    rw [Dict.get?_empty] at hnone
    cases hnone
  small := Nat.zero_le _
  few := Nat.zero_le _
  entries := List.Forall₂.nil
  used := rfl
  within := le_max_right _ _

theorem Encoded.append (h : Encoded cs e b) (news : List (Certificate K)) : Encoded (cs ++ news) e b := by
  obtain ⟨packed, idxs, hpacked, hchain, hmap, rfl⟩ := h
  refine ⟨packed, idxs, hpacked, hchain, ?_, rfl⟩
  rw [← hmap]
  refine List.map_congr_left fun i hi => ?_
  have hmem : cs[i]? ∈ e.certChain.map some := hmap ▸ List.mem_map_of_mem hi
  obtain ⟨c, -, hc⟩ := List.mem_map.mp hmem
  exact List.getElem?_append_left (List.getElem?_eq_some_iff.mp hc.symm).1

def rowsLen (rows : List (Bytes × Bytes)) : ℕ := (rows.map Prod.snd).flatten.length

/-- **What `gather` finds**: rows for the certificates of the chain that are not in the index. -/
theorem gather_spec {added' : List (Bytes × Bytes)} {cost' : ℕ} :
    ∀ {chain news : List (Certificate K)} {added : List (Bytes × Bytes)} {cost : ℕ},
      p.gather sha256 chain added cost = .ok (added', cost') →
      List.Forall₂ (Row sha256 p.known) news added → (∀ c ∈ news, c ∈ U) → (∀ c ∈ chain, c ∈ U) →
      p.pool.length + added.length ≤ entryPoolMax →
      ∃ news', List.Forall₂ (Row sha256 p.known) news' added' ∧ (∀ c ∈ news', c ∈ U) ∧
        p.pool.length + added'.length ≤ entryPoolMax ∧ cost' + rowsLen added = cost + rowsLen added' ∧
        added.map Prod.fst ⊆ added'.map Prod.fst ∧
        ∀ c ∈ chain, fingerprint sha256 c ∈ p.index.keys ∨ fingerprint sha256 c ∈ added'.map Prod.fst
  | [], news, added, cost, h, hrows, hin, _, hroom => by
    obtain ⟨rfl, rfl⟩ := Prod.mk.inj (Except.ok.inj h)
    exact ⟨news, hrows, hin, hroom, rfl, List.Subset.refl _, fun _ hc => absurd hc List.not_mem_nil⟩
  | c :: chain, news, added, cost, h, hrows, hin, hchain, hroom => by
    have hrest : ∀ c ∈ chain, c ∈ U := fun c' hc' => hchain c' (List.mem_cons_of_mem _ hc')
    rw [gather] at h
    by_cases hold : fingerprint sha256 c ∈ p.index.keys ∨ fingerprint sha256 c ∈ added.map Prod.fst
    · rw [if_pos hold] at h
      obtain ⟨news', h1, h2, h3, h4, h5, h6⟩ := gather_spec h hrows hin hrest hroom
      refine ⟨news', h1, h2, h3, h4, h5, fun c' hc' => ?_⟩
      rcases List.mem_cons.mp hc' with rfl | hc'
      · exact hold.imp_right fun hmem => h5 hmem
      · exact h6 c' hc'
    · rw [if_neg hold] at h
      by_cases hfull : entryPoolMax ≤ p.pool.length + added.length
      · rw [if_pos hfull] at h
        cases h
      · rw [if_neg hfull] at h
        cases hpack : packCert sha256 p.known c with
        | none => rw [hpack] at h; cases h
        | some body =>
          rw [hpack] at h
          have hrow : Row sha256 p.known c (fingerprint sha256 c, body) := ⟨rfl, hpack⟩
          have hroom' : p.pool.length + (added ++ [(fingerprint sha256 c, body)]).length ≤ entryPoolMax := by
            rw [List.length_append, List.length_singleton]
            omega
          have hin' : ∀ c' ∈ news ++ [c], c' ∈ U := by
            intro c' hc'
            rcases List.mem_append.mp hc' with hc' | hc'
            · exact hin c' hc'
            · rw [List.mem_singleton.mp hc']
              exact hchain c List.mem_cons_self
          obtain ⟨news', h1, h2, h3, h4, h5, h6⟩ := gather_spec h
            (List.rel_append hrows (List.Forall₂.cons hrow List.Forall₂.nil)) hin' hrest hroom'
          rw [List.map_append] at h5
          refine ⟨news', h1, h2, h3, ?_, List.Subset.trans (List.subset_append_left _ _) h5, fun c' hc' => ?_⟩
          · have hsum : rowsLen (added ++ [(fingerprint sha256 c, body)]) = rowsLen added + body.length := by
              unfold rowsLen
              rw [List.map_append, List.flatten_append, List.length_append]
              simp
            omega
          · rcases List.mem_cons.mp hc' with rfl | hc'
            · exact Or.inr (h5 (List.mem_append_right _ List.mem_cons_self))
            · exact h6 c' hc'

theorem enter_spec {news : List (Certificate K)} {added : List (Bytes × Bytes)}
    (hrows : List.Forall₂ (Row sha256 known) news added) : ∀ {p : Packer} {cs : List (Certificate K)},
      cs.length = p.pool.length → Indexed sha256 cs p.index →
      Indexed sha256 (cs ++ news) (added.foldl enter p).index ∧
        (added.foldl enter p).pool = p.pool ++ added.map Prod.snd ∧
        (added.foldl enter p).entries = p.entries ∧
        (added.foldl enter p).used = p.used ∧
        (added.foldl enter p).known = p.known ∧
        (added.foldl enter p).budget = p.budget ∧
        ∀ d, d ∈ p.index.keys ∨ d ∈ added.map Prod.fst → d ∈ (added.foldl enter p).index.keys := by
  induction hrows with
  | nil =>
    intro p cs _ hindex
    rw [List.append_nil]
    exact ⟨hindex, (List.append_nil _).symm, rfl, rfl, rfl, rfl,
      fun d hd => hd.resolve_right List.not_mem_nil⟩
  | @cons c row news added hrow _ ih =>
    intro p cs hlen hindex
    have hindex' : Indexed sha256 (cs ++ [c]) (p.enter row).index := by
      intro d i hget
      rcases Dict.get?_of_set hget with ⟨rfl, rfl⟩ | ⟨-, hset⟩
      · refine ⟨c, ?_, hrow.1.symm⟩
        rw [← hlen, List.getElem?_concat_length]
      · obtain ⟨c', hc', hfp⟩ := hindex d i hset
        refine ⟨c', ?_, hfp⟩
        rw [List.getElem?_append_left (List.getElem?_eq_some_iff.mp hc').1]
        exact hc'
    have hlen' : (cs ++ [c]).length = (p.enter row).pool.length := by
      show _ = (p.pool ++ [row.2]).length
      rw [List.length_append, List.length_append, hlen]
      rfl
    obtain ⟨h1, h2, h3, h4, h5, h6, h7⟩ := ih hlen' hindex'
    rw [List.append_assoc] at h1
    refine ⟨h1, ?_, h3, h4, h5, h6, fun d hd => h7 d ?_⟩
    · rw [List.foldl_cons, h2, List.map_cons]
      show p.pool ++ [row.2] ++ _ = _
      rw [List.append_assoc]
      rfl
    · have hkeys : d ∈ (p.enter row).index.keys ↔ d = row.1 ∨ d ∈ p.index.keys := Dict.mem_keys_set
      rcases hd with hd | hd
      · exact Or.inl (hkeys.mpr (Or.inr hd))
      · rcases List.mem_cons.mp hd with rfl | hd
        · exact Or.inl (hkeys.mpr (Or.inl rfl))
        · exact Or.inr hd

/-! ### Adding -/

theorem gather_error {outcome : Outcome} : ∀ {chain : List (Certificate K)}
    {added : List (Bytes × Bytes)} {cost : ℕ}, p.gather sha256 chain added cost = .error outcome →
    outcome ≠ .accepted
  | [], _, _, h => by cases h
  | c :: chain, added, cost, h => by
    rw [gather] at h
    split at h
    · exact gather_error h
    · split at h
      · rw [← Except.error.inj h]
        decide
      · split at h
        · rw [← Except.error.inj h]
          decide
        · exact gather_error h

/-- **A refused entry leaves the packer as it was**, and so does one that raises. -/
theorem add_unchanged (h : (p.add sha256 e).1 ≠ .accepted) : (p.add sha256 e).2 = p := by
  unfold Packer.add at h ⊢
  by_cases hcount : entryCountMax ≤ p.entries.length ∨ entryChainMax < e.certChain.length
  · rw [if_pos hcount]
  · rw [if_neg hcount] at h ⊢
    dsimp only at h ⊢
    cases hpacked : packAddresses (e.addresses.take maxAddresses) with
    | none => rfl
    | some packed =>
      rw [hpacked] at h
      dsimp only at h ⊢
      cases hgather : p.gather sha256 e.certChain [] _ with
      | error outcome => rfl
      | ok found =>
        rw [hgather] at h
        dsimp only at h ⊢
        by_cases hfits : p.budget < p.used + found.2
        · rw [if_pos hfits]
        · rw [if_neg hfits] at h
          exact absurd rfl h

theorem accepted_spec (h : (p.add sha256 e).1 = .accepted) :
    p.entries.length < entryCountMax ∧ e.certChain.length ≤ entryChainMax ∧
      ∃ packed added cost, packAddresses (e.addresses.take maxAddresses) = some packed ∧
        p.gather sha256 e.certChain [] ((e.nodeId.raw ++ toBE 1 (e.addresses.take maxAddresses).length ++
          toBE 1 e.certChain.length ++ packed).length + 2 * e.certChain.length) = .ok (added, cost) ∧
        (p.used : ℤ) + cost ≤ p.budget ∧
        (p.add sha256 e).2 = { added.foldl enter p with
          entries := (added.foldl enter p).entries ++
            [e.nodeId.raw ++ toBE 1 (e.addresses.take maxAddresses).length ++
              toBE 1 e.certChain.length ++ packed ++ e.certChain.flatMap fun cert =>
                toBE 2 (((added.foldl enter p).index.get? (fingerprint sha256 cert)).getD 0)]
          used := (added.foldl enter p).used + cost } := by
  unfold Packer.add at h ⊢
  by_cases hcount : entryCountMax ≤ p.entries.length ∨ entryChainMax < e.certChain.length
  · rw [if_pos hcount] at h
    cases h
  · rw [if_neg hcount] at h ⊢
    dsimp only at h ⊢
    rw [not_or, not_le, not_lt] at hcount
    refine ⟨hcount.1, hcount.2, ?_⟩
    cases hpacked : packAddresses (e.addresses.take maxAddresses) with
    | none => rw [hpacked] at h; cases h
    | some packed =>
      rw [hpacked] at h
      dsimp only at h ⊢
      cases hgather : p.gather sha256 e.certChain [] _ with
      | error outcome =>
        rw [hgather] at h
        exact absurd h (gather_error hgather)
      | ok found =>
        obtain ⟨added, cost⟩ := found
        rw [hgather] at h
        dsimp only at h ⊢
        by_cases hfits : p.budget < p.used + cost
        · rw [if_pos hfits] at h
          cases h
        · rw [if_neg hfits]
          exact ⟨packed, added, cost, rfl, hgather, not_lt.mp hfits, rfl⟩

/-- **An accepted entry is held.** Certificates of `U` are told apart by their fingerprints. -/
theorem Packed.add (hp : Packed sha256 U p cs es) (hU : Set.InjOn (fingerprint sha256) U)
    (he : ∀ c ∈ e.certChain, c ∈ U) (h : (p.add sha256 e).1 = .accepted) :
    ∃ cs', Packed sha256 U (p.add sha256 e).2 cs' (es ++ [e]) := by
  obtain ⟨hcount, hchain, packed, added, cost, hpacked, hgather, hfits, heq⟩ := accepted_spec h
  have hlen : cs.length = p.pool.length := hp.pool.length_eq
  have hroom : p.pool.length + ([] : List (Bytes × Bytes)).length ≤ entryPoolMax := by
    rw [← hlen]
    exact hp.small
  obtain ⟨news, hrows, hin, hsmall, hcost, -, hfound⟩ := gather_spec hgather List.Forall₂.nil
    (fun _ hc => absurd hc List.not_mem_nil) he hroom
  obtain ⟨hindex, hpool, hentries, hused, hknown, hbudget, hkeys⟩ := enter_spec hrows hlen hp.index
  have hinside : ∀ c ∈ cs ++ news, c ∈ U := fun c hc =>
    (List.mem_append.mp hc).elim (hp.inside c) (hin c)
  -- the index finds every certificate of the chain, and itself, since fingerprints tell them apart
  have hmap : (e.certChain.map fun c =>
      ((added.foldl enter p).index.get? (fingerprint sha256 c)).getD 0).map ((cs ++ news)[·]?) =
      e.certChain.map some := by
    rw [List.map_map]
    refine List.map_congr_left fun c hc => ?_
    obtain ⟨i, hi⟩ := Dict.mem_keys.mp (hkeys _ (hfound c hc))
    obtain ⟨c', hc', hfp⟩ := hindex _ i hi
    have hsame : c' = c := hU (hinside c' (List.mem_of_getElem? hc')) (he c hc) hfp
    show (cs ++ news)[((added.foldl enter p).index.get? (fingerprint sha256 c)).getD 0]? = some c
    rw [hi, Option.getD_some, hc', hsame]
  have hblob : Encoded (cs ++ news) e (e.nodeId.raw ++ toBE 1 (e.addresses.take maxAddresses).length ++
      toBE 1 e.certChain.length ++ packed ++ e.certChain.flatMap fun cert =>
        toBE 2 (((added.foldl enter p).index.get? (fingerprint sha256 cert)).getD 0)) := by
    refine ⟨packed, _, hpacked, hchain, hmap, ?_⟩
    rw [List.flatMap_map]
  have hrowsLen : news.length = added.length := hrows.length_eq
  refine ⟨cs ++ news, ?_⟩
  rw [heq]
  constructor
  · show List.Forall₂ (fun c b => packCert sha256 (added.foldl enter p).known c = some b) _
      (added.foldl enter p).pool
    rw [hpool, hknown]
    refine List.rel_append hp.pool ?_
    rw [List.forall₂_map_right_iff]
    exact hrows.imp fun _ _ hrow => hrow.2
  · exact hinside
  · exact hindex
  · rw [List.length_append, hlen, hrowsLen]
    exact hsmall
  · rw [List.length_append, List.length_singleton, hp.entries.length_eq]
    exact hcount
  · show List.Forall₂ _ _ ((added.foldl enter p).entries ++ [_])
    rw [hentries]
    exact List.rel_append (hp.entries.imp fun _ _ hb => hb.append news)
      (List.Forall₂.cons hblob List.Forall₂.nil)
  · show (added.foldl enter p).used + cost = 3 + (added.foldl enter p).pool.flatten.length +
      ((added.foldl enter p).entries ++ [_]).flatten.length
    rw [hpool, hentries, hused, hp.used, List.flatten_append, List.flatten_append, List.length_append,
      List.length_append, List.flatten_singleton]
    have hrefs : (e.certChain.flatMap fun cert =>
        toBE 2 (((added.foldl enter p).index.get? (fingerprint sha256 cert)).getD 0)).length =
        2 * e.certChain.length := by
      rw [← List.flatMap_map, length_indices, List.length_map]
    unfold rowsLen at hcost
    rw [List.map_nil, List.flatten_nil, List.length_nil] at hcost
    have hsplit : ∀ x y : Bytes, (x ++ y).length = x.length + y.length := fun _ _ => List.length_append
    rw [hsplit _ (e.certChain.flatMap _), hrefs]
    omega
  · show (((added.foldl enter p).used + cost : ℕ) : ℤ) ≤ max (added.foldl enter p).budget 3
    rw [hused, hbudget]
    push_cast
    exact hfits.trans (le_max_left _ _)

/-! ### Answers -/

theorem add_keeps : (p.add sha256 e).2.budget = p.budget ∧ (p.add sha256 e).2.known = p.known := by
  by_cases h : (p.add sha256 e).1 = .accepted
  · obtain ⟨-, -, packed, added, cost, -, hgather, -, heq⟩ := accepted_spec h
    rw [heq]
    have hfold : ∀ (rows : List (Bytes × Bytes)) (q : Packer),
        (rows.foldl enter q).budget = q.budget ∧ (rows.foldl enter q).known = q.known := by
      intro rows
      induction rows with
      | nil => exact fun _ => ⟨rfl, rfl⟩
      | cons row rows ih => exact fun q => ih (q.enter row)
    exact hfold added p
  · rw [add_unchanged h]
    exact ⟨rfl, rfl⟩

theorem Packed.offer (hU : Set.InjOn (fingerprint sha256) U) : ∀ {offered : List (NodeEntry K)}
    {p : Packer} {cs : List (Certificate K)} {es : List (NodeEntry K)}, Packed sha256 U p cs es →
    (∀ e ∈ offered, ∀ c ∈ e.certChain, c ∈ U) →
    (∃ cs', Packed sha256 U (p.offer sha256 offered).1 cs' (es ++ (p.offer sha256 offered).2)) ∧
      (p.offer sha256 offered).1.budget = p.budget ∧ (p.offer sha256 offered).1.known = p.known ∧
      (p.offer sha256 offered).2.Sublist offered
  | [], p, cs, es, hp, _ => by
    refine ⟨⟨cs, ?_⟩, rfl, rfl, List.Sublist.slnil⟩
    show Packed sha256 U p cs (es ++ [])
    rwa [List.append_nil]
  | e :: offered, p, cs, es, hp, hin => by
    have hrest : ∀ e' ∈ offered, ∀ c ∈ e'.certChain, c ∈ U := fun e' he' =>
      hin e' (List.mem_cons_of_mem _ he')
    have hkeeps : (p.add sha256 e).2.budget = p.budget ∧ (p.add sha256 e).2.known = p.known := add_keeps
    obtain ⟨hbudget, hknown⟩ := hkeeps
    rw [Packer.offer]
    by_cases h : (p.add sha256 e).1 = .accepted
    · obtain ⟨cs', hadd⟩ := hp.add hU (hin e List.mem_cons_self) h
      obtain ⟨⟨cs'', hlast⟩, h1, h2, h3⟩ := Packed.offer hU hadd hrest
      rw [if_pos h]
      rw [List.append_assoc] at hlast
      exact ⟨⟨cs'', hlast⟩, h1.trans hbudget, h2.trans hknown, h3.cons_cons e⟩
    · have hsame := add_unchanged h
      rw [if_neg h, hsame]
      obtain ⟨hlast, h1, h2, h3⟩ := Packed.offer hU hp hrest
      exact ⟨hlast, h1, h2, h3.cons e⟩

theorem length_encode (hp : Packed sha256 U p cs es) : p.encode.length = p.used := by
  unfold encode
  simp only [List.length_append, length_toBE, hp.used]
  omega

theorem Packed.decode_encode (hp : Packed sha256 U p cs es) (hlen : ∀ b, (sha256 b).length = 32)
    (hresolve : ∀ c ∈ cs, fingerprint sha256 c ∈ p.known → resolve (fingerprint sha256 c) = some c)
    (hvalid : ∀ e ∈ es, ∀ a ∈ e.addresses, Valid a) (rest : Bytes) :
    decodeEntries resolve (p.encode ++ rest) = .ok (es.map listed, p.encode.length) := by
  have h0 : From (p.encode ++ rest) 0 (toBE 2 p.pool.length ++ (p.pool.flatten ++
      (toBE 1 p.entries.length ++ (p.entries.flatten ++ rest)))) := by
    have hstart := From.start (p.encode ++ rest)
    have hassoc : p.encode ++ rest = toBE 2 p.pool.length ++ (p.pool.flatten ++
        (toBE 1 p.entries.length ++ (p.entries.flatten ++ rest))) := by
      unfold encode
      simp only [List.append_assoc]
    exact ⟨hstart.le, hstart.drop.trans hassoc⟩
  have hpoolLen : p.pool.length ≤ entryPoolMax := by rw [← hp.pool.length_eq]; exact hp.small
  have hcountLen : p.entries.length ≤ entryCountMax := by rw [← hp.entries.length_eq]; exact hp.few
  have hmax : entryPoolMax = 32 ∧ entryCountMax = 20 := ⟨rfl, rfl⟩
  have h2 := h0.next (length_toBE 2 _)
  have hcount := h2.next rfl
  have hentries := hcount.next (length_toBE 1 _)
  have hfits := h0.fits (length_toBE 2 _)
  have hfits' := hcount.fits (length_toBE 1 _)
  have hpoolField : field (p.encode ++ rest) 0 2 = p.pool.length := h0.field (by omega)
  have hcountField : field (p.encode ++ rest) (0 + 2 + p.pool.flatten.length) 1 = p.entries.length :=
    hcount.field (by omega)
  have hpool : decodePool resolve (p.encode ++ rest) p.pool.length (0 + 2) =
      .ok (cs.map some, 0 + 2 + p.pool.flatten.length) := decodePool_spec hlen hp.pool hresolve h2
  have hmany : decodeMany (p.encode ++ rest) (cs.map some) p.entries.length
      (0 + 2 + p.pool.flatten.length + 1) =
      .ok (es.map listed, 0 + 2 + p.pool.flatten.length + 1 + p.entries.flatten.length) :=
    decodeMany_spec hp.small hp.entries hvalid hentries
  have hend : 0 + 2 + p.pool.flatten.length + 1 + p.entries.flatten.length = p.encode.length := by
    rw [length_encode hp, hp.used]
    omega
  unfold decodeEntries
  rw [if_neg (by omega)]
  dsimp only
  rw [hpoolField, if_neg (by omega)]
  show Except.bind (decodePool resolve (p.encode ++ rest) p.pool.length (0 + 2)) _ = _
  rw [hpool]
  simp only [Except.bind]
  rw [if_neg (by omega), hcountField, if_neg (by omega), hmany, hend]

def certsOf (offered : List (NodeEntry K)) : Set (Certificate K) :=
  {c | ∃ e ∈ offered, c ∈ e.certChain}

/-- **An answer reads back.** Whatever the budget, the fingerprints the querier knows, and the entries
offered one after another, with valid addresses and certificates told apart by their fingerprints: the
answer is no longer than the budget, or three bytes; an entry that is not accepted leaves the packer as it
was; and with a resolver that finds the certificates whose fingerprints are known, `decodeEntries` reads
out of the answer, whatever follows it, the accepted entries in order, each with its first addresses and
its chain, and the length of the answer. -/
theorem found_reads_back (hlen : ∀ b, (sha256 b).length = 32) (budget : ℤ) (known : Finset Bytes)
    (offered : List (NodeEntry K)) (hvalid : ∀ e ∈ offered, ∀ a ∈ e.addresses, Valid a)
    (hprints : Set.InjOn (fingerprint sha256) (certsOf offered)) :
    (((Packer.new budget known).offer sha256 offered).1.encode.length : ℤ) ≤ max budget 3 ∧
    (∀ (p : Packer) (e : NodeEntry K), (p.add sha256 e).1 ≠ .accepted → (p.add sha256 e).2 = p) ∧
    ∀ resolve : Bytes → Option (Certificate K),
      (∀ c ∈ certsOf offered, fingerprint sha256 c ∈ known → resolve (fingerprint sha256 c) = some c) →
      ∀ rest, decodeEntries resolve (((Packer.new budget known).offer sha256 offered).1.encode ++ rest) =
        .ok (((Packer.new budget known).offer sha256 offered).2.map listed,
          ((Packer.new budget known).offer sha256 offered).1.encode.length) := by
  have hnew : Packed sha256 (certsOf offered) (Packer.new budget known) [] [] := packed_new budget
  obtain ⟨⟨cs, hpacked⟩, hbudget, hknown, hsub⟩ := Packed.offer hprints hnew fun e he c hc => ⟨e, he, hc⟩
  rw [List.nil_append] at hpacked
  refine ⟨?_, fun p e => add_unchanged, fun resolve hresolve rest => ?_⟩
  · have hwithin := hpacked.within
    rw [hbudget] at hwithin
    rw [length_encode hpacked]
    exact hwithin
  · refine hpacked.decode_encode hlen (fun c hc hk => ?_) (fun e he => hvalid e (hsub.subset he)) rest
    rw [hknown] at hk
    exact hresolve c (hpacked.inside c hc) hk

/-! ### Two members under one root -/

def firstBytes (b : Bytes) : Bytes := (b ++ List.replicate 32 0).take 32

def member (b : UInt8) : NodeEntry plain :=
  ⟨(plainCert b 9).subjectId, [ascii "tcp://a:1"], [], [plainCert b 9, plainCert 9 9]⟩

def findRoot (digest : Bytes) : Option (Certificate plain) :=
  if digest = fingerprint firstBytes (plainCert 9 9) then some (plainCert 9 9) else none

theorem shared_root :
    let packer := (Packer.new 500 {fingerprint firstBytes (plainCert 9 9)}).offer firstBytes
      [member 1, member 2]
    packer.2 = [member 1, member 2] ∧
      decodeEntries findRoot (packer.1.encode ++ [1]) =
        .ok ([member 1, member 2].map listed, packer.1.encode.length) := by
  have hcerts : ∀ c ∈ certsOf [member 1, member 2],
      c ∈ [plainCert 1 9, plainCert 2 9, plainCert 9 9] := by
    rintro c ⟨e, he, hc⟩
    revert hc
    have hall : ∀ e ∈ [member 1, member 2], ∀ c ∈ e.certChain,
        c ∈ [plainCert 1 9, plainCert 2 9, plainCert 9 9] := by decide +kernel
    exact hall e he c
  have hprints : ∀ c ∈ [plainCert 1 9, plainCert 2 9, plainCert 9 9],
      ∀ c' ∈ [plainCert 1 9, plainCert 2 9, plainCert 9 9],
      fingerprint firstBytes c = fingerprint firstBytes c' → c = c' := by decide +kernel
  have hknown : ∀ c ∈ [plainCert 1 9, plainCert 2 9, plainCert 9 9],
      fingerprint firstBytes c ∈ ({fingerprint firstBytes (plainCert 9 9)} : Finset Bytes) →
      findRoot (fingerprint firstBytes c) = some c := by decide +kernel
  have hvalid : ∀ e ∈ [member 1, member 2], ∀ a ∈ e.addresses, Valid a := by
    have hall : ∀ e ∈ [member 1, member 2], ∀ a ∈ e.addresses,
        validateUri a = .valid (ascii "tcp") (ascii "a:1") := by decide +kernel
    exact fun e he a ha => ⟨_, _, hall e he a ha⟩
  have hlen : ∀ b, (firstBytes b).length = 32 := fun b => by simp [firstBytes]
  have haccepted : ((Packer.new 500 {fingerprint firstBytes (plainCert 9 9)}).offer firstBytes
      [member 1, member 2]).2 = [member 1, member 2] := by decide +kernel
  refine ⟨haccepted, ?_⟩
  have hread := (found_reads_back hlen 500 {fingerprint firstBytes (plainCert 9 9)} [member 1, member 2]
    hvalid fun c hc c' hc' => hprints c (hcerts c hc) c' (hcerts c' hc')).2.2 findRoot
    (fun c hc => hknown c (hcerts c hc)) [1]
  rwa [haccepted] at hread

end NMesh.Routing.RoundTrip
