import NMesh.KeyShare.Handover

/-! # An offer is read as it was made

An offer that was built is read by the node it names, for the node that made it, as what it says, if its label
can be shown (`offer_reads`): the builder cuts the label to its greatest length, while the parser refuses a
label with a character that is not printable, which the builder lets pass (`offer_unprintable`). Read for any
other pair of nodes it is refused, as the two ids are in what was signed. -/

namespace NMesh.KeyShare.Offering

open Base.BigEndian Base.Utf8 NMesh.Cert.Identity NMesh.KeyShare.Message
open NMesh.KeyShare.Handover (marked)

variable {P : Suite} {offerId publisherPub encoded signature data : Bytes} {label : Text} {ts : ℕ}
  {fromId toId : NodeID} {sign : Bytes → Option Bytes}

def offerFrame (offerId publisherPub encoded signature : Bytes) (ts : ℕ) : Bytes :=
  toBE 1 version ++ (toBE 8 ts ++ (offerId ++ (toBE 2 publisherPub.length ++ (toBE 2 encoded.length ++
    (toBE 2 signature.length ++ (publisherPub ++ (encoded ++ signature)))))))

theorem buildOffer_eq_some (h : buildOffer offerId fromId toId publisherPub sign label ts = some data) :
    (publisherPub ≠ [] ∧ publisherPub.length ≤ maxPubkey ∧ offerId.length = offerIdLen) ∧ ts < 256 ^ 8 ∧
      ∃ encoded signature, encodeUtf8 (label.take maxLabel) = some encoded ∧
        sign (offerInput offerId fromId toId ts publisherPub encoded) = some signature ∧
        signature.length ≤ maxSig ∧ encoded.length ≤ maxLabel * 4 ∧
        data = offerFrame offerId publisherPub encoded signature ts := by
  simp only [buildOffer, Option.bind_eq_bind, Option.bind_eq_some_iff, Option.guard_eq_some'] at h
  obtain ⟨-, hpub, -, hts, encoded, hencoded, signature, hsignature, -, ⟨hsig, hlen⟩, hdata⟩ := h
  exact ⟨hpub, hts, encoded, signature, hencoded, hsignature, hsig, hlen, (Option.some.inj hdata).symm⟩

theorem parseOffer_frame (hpub : publisherPub ≠ []) (hpubLen : publisherPub.length ≤ maxPubkey)
    (hid : offerId.length = offerIdLen) (hts : ts < 256 ^ 8) (hsig : signature.length ≤ maxSig)
    (hlabel : label.length ≤ maxLabel) (hencoded : encodeUtf8 label = some encoded)
    (hlen : encoded.length ≤ maxLabel * 4) (fromId toId : NodeID) (offer : Offer) :
    parseOffer P (offerFrame offerId publisherPub encoded signature ts) fromId toId = some offer ↔
      signature ≠ [] ∧ label.all P.printable = true ∧
        P.verify (offerInput offerId fromId toId ts publisherPub encoded) signature publisherPub = true ∧
        ⟨offerId, publisherPub, label, ts⟩ = offer := by
  set data := offerFrame offerId publisherPub encoded signature ts with hdata
  have hpubPos := List.length_pos_iff.mpr hpub
  have hlength : data.length = offerHdrSize + publisherPub.length + encoded.length + signature.length := by
    rw [hdata, offerFrame]
    simp only [List.length_append, length_toBE, hid, offerHdrSize, offerIdLen]
    omega
  simp only [maxPubkey, offerIdLen, maxSig, maxLabel] at hpubLen hid hsig hlabel hlen
  -- what follows each offset
  have d0 : data.drop 0 = toBE 1 version ++ _ := rfl
  have d1 := drop_of_drop d0 (length_toBE 1 _)
  have d9 := drop_of_drop d1 (length_toBE 8 _)
  have d25 := drop_of_drop d9 hid
  have d27 := drop_of_drop d25 (length_toBE 2 _)
  have d29 := drop_of_drop d27 (length_toBE 2 _)
  have d31 := drop_of_drop d29 (length_toBE 2 _)
  have dlabel := drop_of_drop d31 rfl
  have dsig := drop_of_drop dlabel rfl
  simp only [Nat.reduceAdd] at d1 d9 d25 d27 d29 d31 dlabel dsig
  -- the numbers and the parts read there
  have eversion : field data 0 1 = version := field_of_drop d0 (by decide)
  have ets : field data 1 8 = ts := field_of_drop d1 hts
  have epub : field data 25 2 = publisherPub.length := field_of_drop d25 (by omega)
  have elabel : field data 27 2 = encoded.length := field_of_drop d27 (by omega)
  have esig : field data 29 2 = signature.length := field_of_drop d29 (by omega)
  have eid : slice data 9 offerIdLen = offerId := slice_of_drop d9 hid
  have epublisher : slice data offerHdrSize publisherPub.length = publisherPub := slice_of_drop d31 rfl
  have eencoded : slice data (offerHdrSize + publisherPub.length) encoded.length = encoded :=
    slice_of_drop dlabel rfl
  have esignature : data.drop (offerHdrSize + publisherPub.length + encoded.length) = signature := dsig
  have hsize : offerHdrSize ≤ data.length ∧ data.length ≤ maxOffer := by
    rw [hlength]
    simp only [maxOffer, offerHdrSize, maxPubkey, maxLabel, maxSig]
    omega
  have hbounds : (publisherPub.length ≤ maxPubkey ∧ encoded.length ≤ maxLabel * 4 ∧
      signature.length ≤ maxSig ∧ publisherPub.length ≠ 0 ∧ signature.length ≠ 0) ↔ signature ≠ [] := by
    simp only [maxPubkey, maxLabel, maxSig, ne_eq, List.length_eq_zero_iff]
    exact ⟨fun h => h.2.2.2.2, fun h => ⟨hpubLen, hlen, hsig, hpub, h⟩⟩
  have hshort : label.length ≤ maxLabel := hlabel
  rw [hlength] at hsize
  simp only [parseOffer, eversion, ets, epub, elabel, esig, eid, epublisher, eencoded, esignature, hbounds,
    hlength, decode_encode hencoded, Option.bind_eq_bind, Option.bind_eq_some_iff, Option.guard_eq_some',
    Option.some.injEq, Option.pure_def, hsize, exists_eq_left', hencoded, hshort, true_and, exists_const,
    and_assoc, and_self]

theorem offerInput_inj {fromId' toId' : NodeID}
    (h : offerInput offerId fromId' toId' ts publisherPub encoded =
      offerInput offerId fromId toId ts publisherPub encoded) : fromId' = fromId ∧ toId' = toId := by
  unfold offerInput at h
  obtain ⟨hfrom, h⟩ := List.append_inj (List.append_cancel_left (List.append_cancel_left
    (List.append_cancel_left h))) (by rw [fromId'.len, fromId.len])
  obtain ⟨hto, -⟩ := List.append_inj h (by rw [toId'.len, toId.len])
  exact ⟨NodeID.ext hfrom, NodeID.ext hto⟩

/-- **An offer is read as it was made**, for the two nodes it was made for, exactly if its label, as it was
cut, is printable and its signature is not empty; and for no other two nodes, if the signature verifies for
the message signed only. -/
theorem offer_reads (P : Suite)
    (hbuild : buildOffer offerId fromId toId publisherPub sign label ts = some data)
    (hverify : ∀ encoded signature, encodeUtf8 (label.take maxLabel) = some encoded →
      sign (offerInput offerId fromId toId ts publisherPub encoded) = some signature →
      ∀ message, P.verify message signature publisherPub = true ↔
        message = offerInput offerId fromId toId ts publisherPub encoded) :
    (parseOffer P data fromId toId = some ⟨offerId, publisherPub, label.take maxLabel, ts⟩ ↔
      (label.take maxLabel).all P.printable = true ∧
        ∀ encoded, encodeUtf8 (label.take maxLabel) = some encoded →
          sign (offerInput offerId fromId toId ts publisherPub encoded) ≠ some []) ∧
    ∀ fromId' toId', (fromId', toId') ≠ (fromId, toId) → parseOffer P data fromId' toId' = none := by
  obtain ⟨⟨hpub, hpubLen, hid⟩, hts, encoded, signature, hencoded, hsignature, hsig, hlen, rfl⟩ :=
    buildOffer_eq_some hbuild
  have hcut : (label.take maxLabel).length ≤ maxLabel := List.length_take_le _ _
  have hverify := hverify encoded signature hencoded hsignature
  have hread := parseOffer_frame (P := P) hpub hpubLen hid hts hsig hcut hencoded hlen
  constructor
  · rw [hread, hverify]
    constructor
    · rintro ⟨hne, hprint, -, -⟩
      refine ⟨hprint, fun encoded' hencoded' hempty => hne ?_⟩
      rw [hencoded] at hencoded'
      cases hencoded'
      rw [hsignature] at hempty
      exact Option.some.inj hempty
    · rintro ⟨hprint, hne⟩
      exact ⟨fun hempty => hne encoded hencoded (by rw [hsignature, hempty]), hprint, rfl, rfl⟩
  · intro fromId' toId' hother
    cases hparse : parseOffer P (offerFrame offerId publisherPub encoded signature ts) fromId' toId' with
    | none => rfl
    | some offer =>
      obtain ⟨-, -, hchecks, -⟩ := (hread fromId' toId' offer).mp hparse
      obtain ⟨rfl, rfl⟩ := offerInput_inj ((hverify _).mp hchecks)
      exact absurd rfl hother

/-! ### Two labels -/

def labelled (label : Text) : Option Bytes :=
  buildOffer (List.replicate 16 7) (marked.fromPublicKey [1]) (marked.fromPublicKey [2]) [0x4D]
    (marked.signWith [0x4D]) label 1

theorem labelled_verifies (encoded signature : Bytes)
    (h : marked.signWith [0x4D] (offerInput (List.replicate 16 7) (marked.fromPublicKey [1])
      (marked.fromPublicKey [2]) 1 [0x4D] encoded) = some signature) (message : Bytes) :
    marked.verify message signature [0x4D] = true ↔
      message = offerInput (List.replicate 16 7) (marked.fromPublicKey [1]) (marked.fromPublicKey [2]) 1
        [0x4D] encoded := by
  cases h
  simp only [marked, decide_eq_true_eq]
  constructor
  · intro heq
    exact (List.append_cancel_left (List.cons.inj heq).2).symm
  · rintro rfl
    rfl

theorem offer_reads_key :
    let data := (labelled (ascii "key")).getD []
    let sign := marked.signWith [0x4D]
    let a := marked.fromPublicKey [1]
    let b := marked.fromPublicKey [2]
    (parseOffer marked data a b = some ⟨List.replicate 16 7, [0x4D], (ascii "key").take maxLabel, 1⟩ ↔
      ((ascii "key").take maxLabel).all marked.printable = true ∧
        ∀ encoded, encodeUtf8 ((ascii "key").take maxLabel) = some encoded →
          sign (offerInput (List.replicate 16 7) a b 1 [0x4D] encoded) ≠ some []) ∧
    ∀ fromId' toId', (fromId', toId') ≠ (a, b) → parseOffer marked data fromId' toId' = none :=
  offer_reads marked (show labelled (ascii "key") = some _ by decide +kernel)
    fun encoded signature _ h message => labelled_verifies encoded signature h message

/-- **A label that cannot be printed** is offered, under a signature that verifies for what was signed only,
and the offer is refused. -/
theorem offer_unprintable :
    let a := marked.fromPublicKey [1]
    let b := marked.fromPublicKey [2]
    (labelled [10]).isSome = true ∧
      (∀ encoded signature,
        marked.signWith [0x4D] (offerInput (List.replicate 16 7) a b 1 [0x4D] encoded) = some signature →
        ∀ message, marked.verify message signature [0x4D] = true ↔
          message = offerInput (List.replicate 16 7) a b 1 [0x4D] encoded) ∧
      (labelled [10]).bind (fun data => parseOffer marked data a b) = none :=
  ⟨by decide +kernel, labelled_verifies, by decide +kernel⟩

end NMesh.KeyShare.Offering
