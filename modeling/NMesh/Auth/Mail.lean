import NMesh.Auth.World
import NMesh.E2e.Origin

/-! # What a node has signed end to end

A handshake is signed over a nonce that the node has drawn, an answer over the nonce of a handshake that
came in. What the tables wait for was sent, and what they have parked was parked (`Posted`). -/

namespace NMesh.Auth.Mail

open Base.BigEndian NMesh.Cert.Identity
open NMesh.Link.Handshake NMesh.E2e NMesh.E2e.Outcome NMesh.E2e.Origin NMesh.E2e.Pair NMesh.Auth.World

variable {K : Crypto} {Code : Type} [DecidableEq Code]

/-- What a node's tables hold and its packets say follow from what has passed through it. -/
structure Posted (me : Local K Code) (kem : Kem) (h : Host K Code) : Prop where
  attempt : ∀ q n secret, Attempt h.tables q n secret → ∃ hello,
    .did (.sent ⟨me.id, q, .handshake (some hello)⟩) ∈ h.mail ∧ hello.nonce = n ∧
      hello.kemPub = kem.publicOf secret
  cand : ∀ q key exp, cand h.tables q = some (key, exp) → .did (.parked q key) ∈ h.mail
  hello : ∀ src dst hello, .did (.sent ⟨src, dst, .handshake (some hello)⟩) ∈ h.mail →
    src = me.id ∧ hello.nonce.length = e2eNonceLen ∧ hello.kemPub.length = kemPublicLen ∧
      hello.signature = me.sign (hello.nonce ++ hello.kemPub ++ me.dsaPublicKey)
  answer : ∀ src dst answer, .did (.sent ⟨src, dst, .handshakeAck (some answer)⟩) ∈ h.mail →
    answer.nonce.length = e2eNonceLen ∧ answer.ciphertext.length = kemCiphertextLen ∧
      answer.signature = me.sign (answer.nonce ++ answer.ciphertext ++ me.dsaPublicKey) ∧
        E2eAnswered me kem h answer.nonce answer.ciphertext

section Step

variable {me : Local K Code} {kem : Kem} {h h' : Host K Code}

omit [DecidableEq Code] in
theorem Posted.congr (hp : Posted me kem h)
    (htables : h'.tables = h.tables) (hmail : h'.mail = h.mail) : Posted me kem h' := by
  refine ⟨?_, ?_, ?_, fun src dst answer hmem => ?_⟩
  · rw [htables, hmail]
    exact hp.attempt
  · rw [htables, hmail]
    exact hp.cand
  · rw [hmail]
    exact hp.hello
  · rw [hmail] at hmem
    obtain ⟨hn, hc, hs, ha⟩ := hp.answer src dst answer hmem
    exact ⟨hn, hc, hs, ha.mono (hmail ▸ List.Subset.refl _)⟩

variable {env : Session.Env K} {event : Session.Event K}

theorem mem_mail {e : Session.Effect K} (hmem : .did e ∈ (h.step me (.e2e env event)).mail) : .did e ∈ h.mail ∨
      e ∈ (Session.act (keys me) env event h.tables).out := by
  rcases List.mem_append.mp hmem with hmem | hmem
  · exact .inl hmem
  right
  rcases List.mem_append.mp hmem with hmem | hmem
  · obtain ⟨_, -, heq⟩ := List.mem_map.mp hmem
    cases heq
  · obtain ⟨e', he', heq⟩ := List.mem_map.mp hmem
    exact Mail.did.inj heq ▸ he'

theorem mail_of_out {e : Session.Effect K} (he : e ∈ (Session.act (keys me) env event h.tables).out) :
    .did e ∈ (h.step me (.e2e env event)).mail :=
  List.mem_append_right _ (List.mem_append_right _ (List.mem_map_of_mem he))

theorem mail_of_packet {packet : Session.Packet K} :
    .received packet ∈ (h.step me (.e2e env (.packet packet))).mail :=
  List.mem_append_right _ (List.mem_append_left _ (List.mem_singleton_self _))

theorem Posted.step (h' : Posted me kem h)
    (hkem : KemCall kem env.kemPair env.kemEncapsulate) (hlen : env.urandom.length = e2eNonceLen)
    (hnonce : ∀ packet ∈ inbound event, ∀ n ∈ nonceOf packet, n.length = e2eNonceLen) :
    Posted me kem (h.step me (.e2e env event)) := by
  have htraced := act_traced (keys me) env event h.tables
  have hsub : h.mail ⊆ (h.step me (.e2e env event)).mail := List.subset_append_left _ _
  refine ⟨fun q n secret ha => ?_, fun q key exp hc => ?_, fun src dst hello hmem => ?_,
    fun src dst answer hmem => ?_⟩
  · rcases htraced.attempt q n secret ha with ha | ⟨rfl, rfl, chain, hsent⟩
    · obtain ⟨hello, hmem, hrest⟩ := h'.attempt q n secret ha
      exact ⟨hello, hsub hmem, hrest⟩
    · exact ⟨_, mail_of_out hsent, rfl, hkem.pair⟩
  · rcases htraced.cand q key exp hc with hc | hparked
    · exact hsub (h'.cand q key exp hc)
    · exact mail_of_out hparked
  · rcases mem_mail hmem with hmem | hmem
    · exact h'.hello src dst hello hmem
    · cases htraced.out _ hmem with
      | hello => exact ⟨rfl, hlen, hkem.publicLen, rfl⟩
      | answered _ _ _ _ _ _ _ _ _ he => exact absurd he (by simp)
  · rcases mem_mail hmem with hmem | hmem
    · obtain ⟨hn, hc, hs, ha⟩ := h'.answer src dst answer hmem
      exact ⟨hn, hc, hs, ha.mono hsub⟩
    · cases htraced.out _ hmem with
      | answer _ dst' hello ciphertext shared chain _ hencapsulate hkey =>
        obtain ⟨-, hclen, htarget, rfl⟩ := hkem.encapsulates _ _ _ hencapsulate
        refine ⟨hnonce _ rfl _ rfl, hclen, rfl, dst, dst', hello, _, mail_of_packet, rfl, htarget.symm,
          hkey.imp mail_of_out mail_of_out, mail_of_out hmem, rfl, rfl⟩
      | answered _ _ _ _ _ _ _ _ _ he => exact absurd he (by simp)

theorem nonce_step {n : Bytes}
    (hn : n ∈ (h.step me (.e2e env event)).nonces) : n ∈ h.nonces ∨ n = env.urandom := by
  obtain ⟨mail, hmem, hmail⟩ := List.mem_filterMap.mp hn
  by_cases hold : mail ∈ h.mail
  · exact .inl (List.mem_filterMap.mpr ⟨mail, hold, hmail⟩)
  right
  unfold ofSent at hmail
  split at hmail
  · next packet =>
    have hout := (mem_mail hmem).resolve_left hold
    unfold helloNonce at hmail
    split at hmail
    · next hello hbody =>
      cases (act_traced (keys me) env event h.tables).out _ hout with
      | hello =>
        obtain rfl := Option.some.inj (Session.Body.handshake.inj hbody)
        exact (Option.some.inj hmail).symm
      | answered _ _ _ _ _ _ _ _ _ he => exact absurd he (by simp)
      | answer | data => cases hbody
    · cases hmail
  · cases hmail

end Step

end NMesh.Auth.Mail
