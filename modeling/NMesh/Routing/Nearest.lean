import NMesh.Base.Recency
import NMesh.Routing.Wrong
import Mathlib.Data.Nat.Size

/-! # The shape of the table, and the nearest nodes

Every operation rewrites at most the bucket of the node it is about (`RewritesAt`), so in every run the
entries are distinct and each is where the length of its distance puts it (`Shaped`, `Shape`). Distances
to a target then tell entries apart, and `getClosest` finds the nearest of them
(`NearestFirst`). The order of
a bucket is the order of last contact (`InOrder`) as long as whatever `evictAndAdd` promotes is new to
its bucket, or its oldest entry, or its newest (`Orderly`): `evictOldest` writes over an entry that is
there and does not move it. -/

namespace NMesh.Routing.Nearest

open Base.BigEndian Base.Utf8 Base.JsonText Base.Ordered Base.Runs
open Base.Recency Base.TopK NMesh.Cert.Identity NMesh.Routing.Address NMesh.Routing.Table
open NMesh.Routing.Wrong KBucket RoutingTable

/-! ### What is to hold -/

/-- **Shape**: our own id is not stored, each id once, in the bucket of the length of its distance. -/
structure Shape (ownId : NodeID) (t : RoutingTable) : Prop where
  notOwn : ownId ∉ t.allEntries.map (·.nodeId)
  once : (t.allEntries.map (·.nodeId)).Nodup
  keyed : ∀ i, (t.buckets i).keys = (t.buckets i).values.map (·.nodeId)
  placed : ∀ i, ∀ e ∈ (t.buckets i).values, Nat.size (distance ownId e.nodeId) = i + 1
  small : ∀ i, (t.buckets i).size ≤ 20

/-- The nearest of the entries that are not silent, nearest first. -/
def NearestFirst (t : RoutingTable) : Prop := ∀ now target count,
  Smallest (fun e => distance target e.nodeId) count.toNat
    (t.allEntries.filter fun e => !isSilent e now) (t.getClosest now target count)

def InOrder (t : RoutingTable) (log : List NodeID) : Prop := ∀ i, (t.buckets i).keys.Sublist log.dedup

variable (fromPublicKey : Bytes → NodeID)

/-- The nodes that `importEntries` adds. -/
def imported : List Json → List NodeID
  | [] => []
  | e :: entries =>
    match readEntry fromPublicKey e with
    | none => imported entries
    | some (nodeId, _, items) =>
      match validAddresses (items.take maxAddresses) with
      | none => []
      | some _ => nodeId :: imported entries

def contactsOf : Op → List NodeID
  | .add nodeId _ _ => [nodeId]
  | .evictAndAdd nodeId _ _ => [nodeId]
  | .touch nodeId => [nodeId]
  | .importEntries entries => imported fromPublicKey entries
  | .noteWrongAddress _ _ _ => []
  | .dropAddress _ _ => []
  | .remove _ => []
  | .noteAnswered _ => []
  | .noteUnanswered _ => []

def contacts (calls : List Call) : List NodeID := calls.flatMap fun c => contactsOf fromPublicKey c.op

/-- The node is new to its bucket, or its oldest entry, or its newest. -/
def Fits (t : RoutingTable) (nodeId : NodeID) : Prop :=
  match t.bucketIndex nodeId with
  | none => True
  | some i => nodeId ∉ (t.buckets i).keys ∨ (t.buckets i).keys.head? = some nodeId ∨
      (t.buckets i).keys.getLast? = some nodeId

/-- What `evictAndAdd` promotes fits. -/
def Orderly (s : Moment) (c : Call) : Prop :=
  match c.op with
  | .evictAndAdd nodeId _ _ => Fits s.table nodeId
  | _ => True

/-! ### Rewriting one bucket -/

variable {fromPublicKey} {t t' : RoutingTable} {now : ℚ} {nodeId : NodeID} {i : Fin 160}
variable {g : KBucket → KBucket} {b : KBucket} {ownId : NodeID}

/-- The bucket of `nodeId` is rewritten by `g`, the others stay. -/
structure RewritesAt (nodeId : NodeID) (g : KBucket → KBucket) (t t' : RoutingTable) : Prop where
  own : t'.ownId = t.ownId
  hit : ∀ i, t.bucketIndex nodeId = some i → t'.buckets i = g (t.buckets i)
  miss : ∀ i, t.bucketIndex nodeId ≠ some i → t'.buckets i = t.buckets i

theorem rewritesAt_none (h : t.bucketIndex nodeId = none) : RewritesAt nodeId g t t :=
  ⟨rfl, fun i hi => (Option.some_ne_none i (hi.symm.trans h)).elim, fun _ _ => rfl⟩

theorem rewritesAt_same (h : ∀ i, t.bucketIndex nodeId = some i → g (t.buckets i) = t.buckets i) :
    RewritesAt nodeId g t t := ⟨rfl, fun i hi => (h i hi).symm, fun _ _ => rfl⟩

theorem rewritesAt_set (h : t.bucketIndex nodeId = some i) :
    RewritesAt nodeId g t (t.setBucket i (g (t.buckets i))) := by
  refine ⟨rfl, fun j hj => ?_, fun j hj => ?_⟩
  · obtain rfl : i = j := Option.mem_unique h hj
    exact Function.update_self i _ t.buckets
  · have hne : j ≠ i := fun hji => hj (hji ▸ h)
    exact Function.update_of_ne hne _ t.buckets

def editIn (nodeId : NodeID) (f : NodeEntry → NodeEntry) (b : KBucket) : KBucket :=
  match b.get? nodeId with
  | none => b
  | some entry => b.set nodeId (f entry)

def touchIn (now : ℚ) (nodeId : NodeID) (b : KBucket) : KBucket :=
  match b.get? nodeId with
  | none => b
  | some entry => (b.set nodeId { entry with lastSeen := now }).moveToEnd nodeId

theorem rewritesAt_add (addresses : List Text) (dsaPub : Bytes) :
    RewritesAt nodeId (fun b => (KBucket.add b (t.merged now nodeId addresses dsaPub)).2) t
      (t.add now nodeId addresses dsaPub).2 := by
  unfold RoutingTable.add
  cases hi : t.bucketIndex nodeId with
  | none => exact rewritesAt_none hi
  | some i => exact rewritesAt_set hi

theorem rewritesAt_edit (f : NodeEntry → NodeEntry) :
    RewritesAt nodeId (editIn nodeId f) t (t.edit nodeId f) := by
  unfold RoutingTable.edit
  cases hi : t.bucketIndex nodeId with
  | none => exact rewritesAt_none hi
  | some i =>
    dsimp only
    cases hget : (t.buckets i).get? nodeId with
    | none =>
      refine rewritesAt_same fun j hj => ?_
      obtain rfl : i = j := Option.mem_unique hi hj
      unfold editIn
      rw [hget]
    | some entry =>
      have hedit : (t.buckets i).set nodeId (f entry) = editIn nodeId f (t.buckets i) := by
        unfold editIn
        rw [hget]
      dsimp only
      rw [hedit]
      exact rewritesAt_set hi

theorem rewritesAt_touch : RewritesAt nodeId (touchIn now nodeId) t (t.touch now nodeId).2 := by
  unfold RoutingTable.touch
  cases hi : t.bucketIndex nodeId with
  | none => exact rewritesAt_none hi
  | some i =>
    dsimp only
    cases hget : (t.buckets i).get? nodeId with
    | none =>
      refine rewritesAt_same fun j hj => ?_
      obtain rfl : i = j := Option.mem_unique hi hj
      unfold touchIn
      rw [hget]
    | some entry =>
      have htouch : ((t.buckets i).set nodeId { entry with lastSeen := now }).moveToEnd nodeId =
          touchIn now nodeId (t.buckets i) := by
        unfold touchIn
        rw [hget]
      dsimp only
      rw [htouch]
      exact rewritesAt_set hi

theorem rewritesAt_evictAndAdd (addresses : List Text) (dsaPub : Bytes) :
    RewritesAt nodeId
      (fun b => (evictOldest b (NodeEntry.new nodeId addresses dsaPub now)).getD b) t
      ((t.evictAndAdd now nodeId addresses dsaPub).getD t) := by
  unfold evictAndAdd
  cases hi : t.bucketIndex nodeId with
  | none => exact rewritesAt_none hi
  | some i =>
    dsimp only
    cases he : evictOldest (t.buckets i) (NodeEntry.new nodeId addresses dsaPub now) with
    | none =>
      refine rewritesAt_same fun j hj => ?_
      obtain rfl : i = j := Option.mem_unique hi hj
      rw [he, Option.getD_none]
    | some b =>
      rw [Option.map_some, Option.getD_some]
      have hb : b = (evictOldest (t.buckets i) (NodeEntry.new nodeId addresses dsaPub now)).getD
          (t.buckets i) := by rw [he, Option.getD_some]
      rw [hb]
      exact rewritesAt_set hi

theorem rewritesAt_remove : RewritesAt nodeId (fun b => b.pop nodeId) t (t.remove nodeId) := by
  unfold RoutingTable.remove
  cases hi : t.bucketIndex nodeId with
  | none => exact rewritesAt_none hi
  | some i => exact rewritesAt_set hi

/-- The bucket edit of `dropAddress`. -/
def dropIn (t : RoutingTable) (nodeId : NodeID) (address : Text) : KBucket → KBucket :=
  if (t.dropAddress nodeId address).1 then
    editIn nodeId fun e => { e with addresses := e.addresses.filter (· ≠ address) }
  else id

theorem rewritesAt_dropAddress (address : Text) :
    RewritesAt nodeId (dropIn t nodeId address) t (t.dropAddress nodeId address).2 := by
  unfold dropIn dropAddress
  cases hget : t.get nodeId with
  | none => exact rewritesAt_same fun _ _ => rfl
  | some entry =>
    by_cases hmem : address ∈ entry.addresses
    · simp only [if_pos hmem]
      exact rewritesAt_edit _
    · simp only [if_neg hmem]
      exact rewritesAt_same fun _ _ => rfl

theorem rewritesAt_noteWrongAddress (address : Text) (answeredAs : NodeID) :
    RewritesAt nodeId (dropIn t nodeId address) t
      (t.noteWrongAddress now nodeId address answeredAs) := by
  have hdrop : RewritesAt nodeId (dropIn t nodeId address) t (t.dropAddress nodeId address).2 :=
    rewritesAt_dropAddress address
  exact ⟨hdrop.own, hdrop.hit, hdrop.miss⟩

/-! ### What a rewriting does to a bucket -/

/-- An entry is old or of the node rewritten, and the bound is kept. -/
structure Sound (nodeId : NodeID) (b b' : KBucket) : Prop where
  entry : ∀ k e, b'.get? k = some e → b.get? k = some e ∨ (k = nodeId ∧ e.nodeId = nodeId)
  size : b.size ≤ bucketK → b'.size ≤ bucketK

theorem sound_same : Sound nodeId b b := ⟨fun _ _ he => Or.inl he, fun h => h⟩

variable {entry : NodeEntry}

theorem sound_write {b' : KBucket} (hid : entry.nodeId = nodeId)
    (hget : ∀ k, b'.get? k = if nodeId = k then some entry else b.get? k)
    (hsize : b.size ≤ bucketK → b'.size ≤ bucketK) : Sound nodeId b b' := by
  refine ⟨fun k e he => ?_, hsize⟩
  rw [hget] at he
  by_cases hk : nodeId = k
  · rw [if_pos hk] at he
    cases he
    exact Or.inr ⟨hk.symm, hid⟩
  · rw [if_neg hk] at he
    exact Or.inl he

theorem sound_add (hid : entry.nodeId = nodeId) : Sound nodeId b (KBucket.add b entry).2 := by
  unfold KBucket.add
  rw [hid]
  by_cases hmem : nodeId ∈ b.keys
  · rw [if_pos hmem]
    refine sound_write hid (fun k => ?_) fun h => ?_
    · rw [Dict.get?_moveToEnd, Dict.get?_set]
    · rwa [Dict.size_moveToEnd, Dict.size_set_of_mem hmem]
  · rw [if_neg hmem]
    by_cases hroom : b.size < bucketK
    · rw [if_pos hroom]
      refine sound_write hid (fun k => Dict.get?_set b nodeId k entry) fun h => ?_
      rw [Dict.size_set_of_notMem hmem]
      omega
    · rw [if_neg hroom]
      exact sound_same

theorem sound_editIn {f : NodeEntry → NodeEntry} (hb : ∀ e, b.get? nodeId = some e → e.nodeId = nodeId)
    (hf : ∀ e, (f e).nodeId = e.nodeId) : Sound nodeId b (editIn nodeId f b) := by
  unfold editIn
  cases hget : b.get? nodeId with
  | none => exact sound_same
  | some entry =>
    refine sound_write ((hf entry).trans (hb entry hget)) (fun k => Dict.get?_set b nodeId k _) fun h => ?_
    rwa [Dict.size_set_of_mem (Dict.mem_keys_of_get? hget)]

theorem sound_touchIn (hb : ∀ e, b.get? nodeId = some e → e.nodeId = nodeId) :
    Sound nodeId b (touchIn now nodeId b) := by
  unfold touchIn
  cases hget : b.get? nodeId with
  | none => exact sound_same
  | some entry =>
    have hwrite : ∀ k, ((b.set nodeId { entry with lastSeen := now }).moveToEnd nodeId).get? k =
        if nodeId = k then some { entry with lastSeen := now } else b.get? k := fun k => by
      rw [Dict.get?_moveToEnd, Dict.get?_set]
    have hid : ({ entry with lastSeen := now } : NodeEntry).nodeId = nodeId := hb entry hget
    refine sound_write hid hwrite fun h => ?_
    rwa [Dict.size_moveToEnd, Dict.size_set_of_mem (Dict.mem_keys_of_get? hget)]

theorem sound_pop : Sound nodeId b (b.pop nodeId) :=
  ⟨fun _ _ he => Or.inl (Dict.get?_of_pop he).2, fun h => (Dict.size_pop_le b nodeId).trans h⟩

theorem size_dropFirst (h : b.size ≠ 0) : b.dropFirst.size + 1 = b.size := by
  have hlen : b.dropFirst.size = b.size - 1 := List.length_tail
  omega

theorem sound_evictOldest (hid : entry.nodeId = nodeId) :
    Sound nodeId b ((evictOldest b entry).getD b) := by
  unfold evictOldest
  by_cases hempty : b.size = 0
  · rw [if_pos hempty, Option.getD_none]
    exact sound_same
  · rw [if_neg hempty, Option.getD_some, hid]
    have hdrop := size_dropFirst hempty
    refine ⟨fun k e he => ?_, fun h => ?_⟩
    · rcases Dict.get?_of_set he with ⟨rfl, rfl⟩ | ⟨-, he⟩
      · exact Or.inr ⟨rfl, hid⟩
      · exact Or.inl (Dict.get?_of_dropFirst he)
    · exact Dict.size_set_le (by omega) fun _ => by omega

theorem follows_add (hid : entry.nodeId = nodeId) : Follows [nodeId] b.keys (KBucket.add b entry).2.keys := by
  unfold KBucket.add
  rw [hid]
  by_cases hmem : nodeId ∈ b.keys
  · rw [if_pos hmem]
    exact follows_refile b nodeId entry
  · rw [if_neg hmem]
    by_cases hroom : b.size < bucketK
    · rw [if_pos hroom]
      exact follows_set hmem entry
    · rw [if_neg hroom]
      exact Follows.unused hmem (List.Sublist.refl _)

theorem follows_touchIn : Follows [nodeId] b.keys (touchIn now nodeId b).keys := by
  unfold touchIn
  cases hget : b.get? nodeId with
  | none => exact Follows.unused (Dict.get?_eq_none.mp hget) (List.Sublist.refl _)
  | some entry => exact follows_refile b nodeId _

theorem keys_editIn (f : NodeEntry → NodeEntry) : (editIn nodeId f b).keys = b.keys := by
  unfold editIn
  cases hget : b.get? nodeId with
  | none => rfl
  | some entry => exact Dict.keys_set_of_mem (Dict.mem_keys_of_get? hget) _

theorem follows_evictOldest (hid : entry.nodeId = nodeId)
    (hfits : nodeId ∉ b.keys ∨ b.keys.head? = some nodeId ∨ b.keys.getLast? = some nodeId) :
    Follows [nodeId] b.keys ((evictOldest b entry).getD b).keys := by
  unfold evictOldest
  by_cases hempty : b.size = 0
  · rw [if_pos hempty, Option.getD_none]
    rw [Dict.size_eq] at hempty
    refine Follows.unused ?_ (List.Sublist.refl _)
    rw [List.length_eq_zero_iff.mp hempty]
    exact List.not_mem_nil
  · rw [if_neg hempty, Option.getD_some, hid]
    exact follows_replace hfits entry

theorem not_follows_evictOldest (hid : entry.nodeId = nodeId) (log : List NodeID)
    (hfits : ¬ (nodeId ∉ b.keys ∨ b.keys.head? = some nodeId ∨ b.keys.getLast? = some nodeId)) :
    ¬ Follows (log ++ [nodeId]) [] ((evictOldest b entry).getD b).keys := by
  rw [not_or, not_or, not_not] at hfits
  obtain ⟨hmem, hhead, hlast⟩ := hfits
  have hnd := b.nodup_keys
  cases hkeys : b.keys with
  | nil => rw [hkeys] at hmem; cases hmem
  | cons x ks =>
    rw [hkeys] at hmem hhead hlast hnd
    have htail : nodeId ∈ ks := by
      rcases List.mem_cons.mp hmem with rfl | h
      · exact absurd rfl hhead
      · exact h
    have hsize : b.size ≠ 0 := by rw [Dict.size_eq, hkeys]; simp
    have hdrop : b.dropFirst.keys = ks := by rw [keys_dropFirst, hkeys, List.tail_cons]
    have hafter : ((evictOldest b entry).getD b).keys = ks := by
      unfold evictOldest
      rw [if_neg hsize, Option.getD_some, hid, Dict.keys_set_of_mem (hdrop ▸ htail), hdrop]
    rw [hafter]
    -- something stands after the node, since it is not the last
    obtain ⟨pre, post, rfl⟩ := List.append_of_mem htail
    have hpost : post ≠ [] := by
      rintro rfl
      exact hlast (by rw [← List.cons_append, List.getLast?_append, List.getLast?_singleton, Option.some_or])
    obtain ⟨z, hz⟩ := List.exists_mem_of_ne_nil post hpost
    exact not_follows hz ((List.nodup_cons.mp hnd).2.sublist (List.sublist_append_right _ _))

/-! ### Shaped tables -/

/-- **Every entry is filed under its id, in the bucket of its id, and the bounds hold.** -/
structure Shaped (ownId : NodeID) (t : RoutingTable) : Prop where
  own : t.ownId = ownId
  placed : ∀ i k e, (t.buckets i).get? k = some e → t.bucketIndex k = some i ∧ e.nodeId = k
  small : ∀ i, (t.buckets i).size ≤ bucketK

theorem shaped_new (ownId : NodeID) : Shaped ownId (RoutingTable.new ownId) := by
  refine ⟨rfl, fun i k e he => ?_, fun i => Nat.zero_le _⟩
  have hnone : (Dict.empty : KBucket).get? k = some e := he
  rw [Dict.get?_empty] at hnone
  cases hnone

theorem bucketIndex_congr (h : t'.ownId = t.ownId) (k : NodeID) : t'.bucketIndex k = t.bucketIndex k := by
  simp only [bucketIndex, h]

theorem Shaped.rewrites (h : Shaped ownId t) (hr : RewritesAt nodeId g t t')
    (hs : ∀ i, t.bucketIndex nodeId = some i → Sound nodeId (t.buckets i) (g (t.buckets i))) :
    Shaped ownId t' := by
  refine ⟨hr.own.trans h.own, ?_, ?_⟩
  · intro i k e he
    rw [bucketIndex_congr hr.own]
    by_cases hi : t.bucketIndex nodeId = some i
    · rw [hr.hit i hi] at he
      rcases (hs i hi).entry k e he with hold | ⟨rfl, hid⟩
      · exact h.placed i k e hold
      · exact ⟨hi, hid⟩
    · rw [hr.miss i hi] at he
      exact h.placed i k e he
  · intro i
    by_cases hi : t.bucketIndex nodeId = some i
    · rw [hr.hit i hi]
      exact (hs i hi).size (h.small i)
    · rw [hr.miss i hi]
      exact h.small i

def Uses (us : List NodeID) (t t' : RoutingTable) : Prop :=
  ∀ i, Follows us (t.buckets i).keys (t'.buckets i).keys

theorem Shaped.notMem (h : Shaped ownId t) (hi : t.bucketIndex nodeId ≠ some i) :
    nodeId ∉ (t.buckets i).keys := by
  intro hmem
  obtain ⟨e, he⟩ := Dict.mem_keys.mp hmem
  exact hi (h.placed i nodeId e he).1

theorem Shaped.uses (h : Shaped ownId t) (hr : RewritesAt nodeId g t t')
    (hf : ∀ i, t.bucketIndex nodeId = some i → Follows [nodeId] (t.buckets i).keys (g (t.buckets i)).keys) :
    Uses [nodeId] t t' := by
  intro i
  by_cases hi : t.bucketIndex nodeId = some i
  · rw [hr.hit i hi]
    exact hf i hi
  · rw [hr.miss i hi]
    exact Follows.unused (h.notMem hi) (List.Sublist.refl _)

theorem RewritesAt.quiet (hr : RewritesAt nodeId g t t') (hf : ∀ b, (g b).keys.Sublist b.keys) :
    Uses [] t t' := by
  intro i
  rw [follows_nil]
  by_cases hi : t.bucketIndex nodeId = some i
  · rw [hr.hit i hi]
    exact hf _
  · rw [hr.miss i hi]

/-! ### Every operation -/

theorem Shaped.ownIds (h : Shaped ownId t) : ∀ e, (t.buckets i).get? nodeId = some e → e.nodeId = nodeId :=
  fun e he => (h.placed i nodeId e he).2

theorem Shaped.add (h : Shaped ownId t) (addresses : List Text) (dsaPub : Bytes) :
    Shaped ownId (t.add now nodeId addresses dsaPub).2 :=
  h.rewrites (rewritesAt_add addresses dsaPub) fun _ _ => sound_add (merged_nodeId addresses dsaPub)

theorem Shaped.usesAdd (h : Shaped ownId t) (addresses : List Text) (dsaPub : Bytes) :
    Uses [nodeId] t (t.add now nodeId addresses dsaPub).2 :=
  h.uses (rewritesAt_add addresses dsaPub) fun _ _ => follows_add (merged_nodeId addresses dsaPub)

theorem sound_dropIn (address : Text) (hb : ∀ e, b.get? nodeId = some e → e.nodeId = nodeId) :
    Sound nodeId b (dropIn t nodeId address b) := by
  unfold dropIn
  split
  · exact sound_editIn hb fun _ => rfl
  · exact sound_same

theorem keys_dropIn (address : Text) : (dropIn t nodeId address b).keys = b.keys := by
  unfold dropIn
  split
  · exact keys_editIn _
  · rfl

theorem Shaped.importEntries : ∀ {entries : List Json} {t : RoutingTable}, Shaped ownId t →
    Shaped ownId (t.importEntries fromPublicKey now entries) ∧
      Uses (imported fromPublicKey entries) t (t.importEntries fromPublicKey now entries)
  | [], _, h => ⟨h, fun i => follows_nil.mpr (List.Sublist.refl _)⟩
  | e :: entries, t, h => by
    rw [RoutingTable.importEntries, imported]
    cases hread : readEntry fromPublicKey e with
    | none => exact Shaped.importEntries h
    | some row =>
      obtain ⟨nodeId, dsaPub, items⟩ := row
      dsimp only
      cases hvalid : validAddresses (items.take maxAddresses) with
      | none => exact ⟨h, fun i => follows_nil.mpr (List.Sublist.refl _)⟩
      | some addresses =>
        have hadd : Shaped ownId (t.add now nodeId addresses dsaPub).2 := h.add addresses dsaPub
        obtain ⟨hshaped, huses⟩ := Shaped.importEntries hadd
        exact ⟨hshaped, fun i => (h.usesAdd addresses dsaPub i).trans (huses i)⟩

theorem Shaped.apply (h : Shaped ownId t) (op : Op) : Shaped ownId (apply fromPublicKey now t op) := by
  cases op with
  | add nodeId addresses dsaPub => exact h.add addresses dsaPub
  | evictAndAdd nodeId addresses dsaPub =>
    exact h.rewrites (rewritesAt_evictAndAdd addresses dsaPub) fun _ _ => sound_evictOldest rfl
  | touch nodeId => exact h.rewrites rewritesAt_touch fun _ _ => sound_touchIn h.ownIds
  | noteWrongAddress nodeId address answeredAs =>
    exact h.rewrites (rewritesAt_noteWrongAddress address answeredAs) fun _ _ => sound_dropIn address h.ownIds
  | dropAddress nodeId address =>
    exact h.rewrites (rewritesAt_dropAddress address) fun _ _ => sound_dropIn address h.ownIds
  | remove nodeId => exact h.rewrites rewritesAt_remove fun _ _ => sound_pop
  | noteAnswered nodeId | noteUnanswered nodeId =>
    exact h.rewrites (rewritesAt_edit _) fun _ _ => sound_editIn h.ownIds fun _ => rfl
  | importEntries entries => exact (Shaped.importEntries h).1

/-- **Every operation that is orderly keeps the order of last contact.** -/
theorem Shaped.usesApply (h : Shaped ownId t) {clock : ℚ} {op : Op} (ho : Orderly ⟨t, clock⟩ ⟨now, op⟩) :
    Uses (contactsOf fromPublicKey op) t (Wrong.apply fromPublicKey now t op) := by
  cases op with
  | add nodeId addresses dsaPub => exact h.usesAdd addresses dsaPub
  | evictAndAdd nodeId addresses dsaPub =>
    refine h.uses (rewritesAt_evictAndAdd addresses dsaPub) fun i hi => follows_evictOldest rfl ?_
    have hfits : Fits t nodeId := ho
    unfold Fits at hfits
    rw [hi] at hfits
    exact hfits
  | touch nodeId => exact h.uses rewritesAt_touch fun _ _ => follows_touchIn
  | noteWrongAddress nodeId address answeredAs =>
    exact (rewritesAt_noteWrongAddress address answeredAs).quiet fun _ =>
      (keys_dropIn address).symm ▸ List.Sublist.refl _
  | dropAddress nodeId address =>
    exact (rewritesAt_dropAddress address).quiet fun _ =>
      (keys_dropIn address).symm ▸ List.Sublist.refl _
  | remove nodeId =>
    refine rewritesAt_remove.quiet fun b => ?_
    rw [Dict.keys_pop]
    exact List.filter_sublist
  | noteAnswered nodeId | noteUnanswered nodeId =>
    exact (rewritesAt_edit _).quiet fun _ => (keys_editIn _).symm ▸ List.Sublist.refl _
  | importEntries entries => exact (Shaped.importEntries h).2

/-! ### What the shape gives -/

theorem mem_allEntries {e : NodeEntry} : e ∈ t.allEntries ↔ ∃ i, e ∈ (t.buckets i).values := by
  unfold allEntries
  simp only [List.mem_flatMap, List.mem_finRange, true_and]

theorem Shaped.of_mem (h : Shaped ownId t) {e : NodeEntry} (he : e ∈ (t.buckets i).values) :
    t.bucketIndex e.nodeId = some i := by
  obtain ⟨k, hk⟩ := Dict.mem_values.mp he
  obtain ⟨hi, rfl⟩ := h.placed i k e hk
  exact hi

theorem Shaped.keyed (h : Shaped ownId t) (i : Fin 160) :
    (t.buckets i).keys = (t.buckets i).values.map (·.nodeId) := by
  unfold Dict.keys Dict.values
  rw [List.map_map]
  refine List.map_congr_left fun row hrow => ?_
  exact (h.placed i row.1 row.2 (Dict.get?_eq_some.mpr hrow)).2.symm

theorem Shaped.once (h : Shaped ownId t) : (t.allEntries.map (·.nodeId)).Nodup := by
  unfold allEntries
  rw [List.map_flatMap, List.nodup_flatMap]
  refine ⟨fun i _ => ?_, (List.nodup_finRange 160).imp fun {i j} hne => ?_⟩
  · rw [← h.keyed i]
    exact (t.buckets i).nodup_keys
  · intro k hki hkj
    obtain ⟨e, he, rfl⟩ := List.mem_map.mp hki
    obtain ⟨e', he', heq⟩ := List.mem_map.mp hkj
    have hsame := h.of_mem he'
    rw [heq, h.of_mem he] at hsame
    exact hne (Option.some.inj hsame)

theorem size_of_bucketIndex (h : t.bucketIndex nodeId = some i) :
    Nat.size (distance t.ownId nodeId) = i + 1 := by
  unfold bucketIndex at h
  split_ifs at h with hzero
  have hlog : Nat.log2 (distance t.ownId nodeId) = i := congrArg Fin.val (Option.some.inj h)
  have hspec := (Nat.log2_eq_iff hzero).mp hlog
  have hle := Nat.size_le.mpr hspec.2
  have hlt := Nat.lt_size.mpr hspec.1
  omega

theorem Shaped.shape (h : Shaped ownId t) : Shape ownId t where
  notOwn hmem := by
    obtain ⟨e, he, hid⟩ := List.mem_map.mp hmem
    obtain ⟨i, hi⟩ := mem_allEntries.mp he
    have hindex := h.of_mem hi
    rw [bucketIndex_eq_none.mpr (hid.trans h.own.symm)] at hindex
    cases hindex
  once := h.once
  keyed := h.keyed
  placed _ _ he := h.own ▸ size_of_bucketIndex (h.of_mem he)
  small := h.small

theorem distance_inj {target a c : NodeID} (h : distance target a = distance target c) : a = c := by
  unfold distance at h
  have hraw : ofBE a.raw = ofBE c.raw := by
    have hx := congrArg (ofBE target.raw ^^^ ·) h
    rwa [Nat.xor_xor_cancel_left, Nat.xor_xor_cancel_left] at hx
  exact NodeID.ext (ofBE_inj (by rw [a.len, c.len]) hraw)

theorem Shaped.nearest (h : Shaped ownId t) : NearestFirst t := by
  intro now target count
  refine smallest_spec ?_
  have hids : ((t.allEntries.filter fun e => !isSilent e now).map (·.nodeId)).Nodup :=
    h.once.sublist (List.filter_sublist.map _)
  have hmap := hids.map (f := distance target) fun _ _ hd => distance_inj hd
  rwa [List.map_map] at hmap

/-! ### Runs -/

theorem Shaped.run {s : Moment} (h : Shaped ownId s.table) (calls : List Call) :
    Shaped ownId (run (step fromPublicKey) s calls).table :=
  run_induct (P := fun s : Moment => Shaped ownId s.table) (fun _ c hs => hs.apply c.op) calls h

theorem InOrder.uses {us log : List NodeID} (h : InOrder t log) (hu : Uses us t t') :
    InOrder t' (log ++ us) := fun i =>
  have hlog : Follows log [] (t.buckets i).keys := h i
  hlog.trans (hu i)

theorem orderly_of_inOrder {s : Moment} {c : Call} {log : List NodeID}
    (h : InOrder (step fromPublicKey s c).table (log ++ contactsOf fromPublicKey c.op)) : Orderly s c := by
  obtain ⟨now, op⟩ := c
  cases op with
  | evictAndAdd nodeId addresses dsaPub =>
    show Fits s.table nodeId
    unfold Fits
    cases hi : s.table.bucketIndex nodeId with
    | none => trivial
    | some i =>
      by_contra hfits
      have hhit : ((s.table.evictAndAdd now nodeId addresses dsaPub).getD s.table).buckets i = _ :=
        (rewritesAt_evictAndAdd addresses dsaPub).hit i hi
      have hid : (NodeEntry.new nodeId addresses dsaPub now).nodeId = nodeId := rfl
      have hbroken := not_follows_evictOldest hid log hfits
      rw [← hhit] at hbroken
      exact hbroken (h i)
  | _ => trivial

theorem inOrder_run : ∀ {calls : List Call} {s : Moment} {log : List NodeID}, Shaped ownId s.table →
    InOrder s.table log → (Guarded (step fromPublicKey) Orderly s calls ↔ ∀ before, before <+: calls →
      InOrder (NMesh.Base.Runs.run (step fromPublicKey) s before).table (log ++ contacts fromPublicKey before))
  | [], s, log, _, h => by
    refine ⟨fun _ before hb => ?_, fun _ => trivial⟩
    rw [List.prefix_nil.mp hb]
    unfold contacts
    rwa [List.flatMap_nil, List.append_nil]
  | c :: calls, s, log, hshape, h => by
    have hcons : ∀ before, log ++ contacts fromPublicKey (c :: before) =
        (log ++ contactsOf fromPublicKey c.op) ++ contacts fromPublicKey before := fun before => by
      unfold contacts
      rw [List.flatMap_cons, List.append_assoc]
    have hnext : Shaped ownId (step fromPublicKey s c).table := hshape.apply c.op
    constructor
    · rintro ⟨ho, hrest⟩ before hb
      cases before with
      | nil =>
        unfold contacts
        rwa [List.flatMap_nil, List.append_nil]
      | cons c' before =>
        obtain ⟨rfl, hb'⟩ := List.cons_prefix_cons.mp hb
        rw [hcons, run_cons]
        exact (inOrder_run hnext (h.uses (hshape.usesApply ho))).mp hrest before hb'
    · intro hall
      have hfirst := hall [c] (List.cons_prefix_cons.mpr ⟨rfl, List.nil_prefix⟩)
      have ho : Orderly s c := by
        rw [hcons] at hfirst
        unfold contacts at hfirst
        rw [List.flatMap_nil, List.append_nil] at hfirst
        exact orderly_of_inOrder hfirst
      refine ⟨ho, (inOrder_run hnext (h.uses (hshape.usesApply ho))).mpr fun before hb => ?_⟩
      have hlater := hall (c :: before) (List.cons_prefix_cons.mpr ⟨rfl, hb⟩)
      rwa [hcons, run_cons] at hlater

/-- **Shape, nearest nodes, and order.** After every run of operations our own id is not stored, each id is
stored once, in the bucket of the length of its distance, no bucket holds more than twenty entries, and
`getClosest` answers the nearest entries that are not silent, the nearest first. Every bucket is in the
order of last contact at every moment exactly if whatever `evictAndAdd` promotes is new to its bucket, or
its oldest entry, or its newest. -/
theorem shape_nearest_order (fromPublicKey : Bytes → NodeID) (ownId : NodeID) (start : ℚ)
    (calls : List Call) :
    Shape ownId (run (step fromPublicKey) ⟨.new ownId, start⟩ calls).table ∧
    NearestFirst (run (step fromPublicKey) ⟨.new ownId, start⟩ calls).table ∧
    (Guarded (step fromPublicKey) Orderly ⟨.new ownId, start⟩ calls ↔ ∀ before, before <+: calls →
      InOrder (run (step fromPublicKey) ⟨.new ownId, start⟩ before).table
        (contacts fromPublicKey before)) := by
  have hshaped : Shaped ownId (run (step fromPublicKey) ⟨.new ownId, start⟩ calls).table :=
    Shaped.run (shaped_new ownId) calls
  have horder : InOrder (RoutingTable.new ownId) [] := fun _ => List.nil_sublist _
  refine ⟨hshaped.shape, hshaped.nearest, ?_⟩
  exact inOrder_run (s := ⟨.new ownId, start⟩) (shaped_new ownId) horder

def promoted : List Call :=
  [⟨0, .add (idOf 4) [] []⟩, ⟨1, .add (idOf 5) [] []⟩, ⟨2, .add (idOf 6) [] []⟩,
    ⟨3, .evictAndAdd (idOf 5) [] []⟩]

/-- Node 5 was in contact last, and would be dropped first. -/
theorem promoted_in_place :
    let s := run (step idOfKey) ⟨.new (idOf 0), 0⟩ promoted
    (s.table.buckets 2).keys = [idOf 5, idOf 6] ∧
      contacts idOfKey promoted = [idOf 4, idOf 5, idOf 6, idOf 5] ∧
      ¬ InOrder s.table (contacts idOfKey promoted) := by
  refine ⟨by decide +kernel, by decide +kernel, fun h => ?_⟩
  have h2 := h 2
  revert h2
  decide +kernel

end NMesh.Routing.Nearest
