import NMesh.Base.Runs
import NMesh.Routing.Table

/-! # A wrong address stays out

`Fine` says that an entry lists at most eight addresses, none of them held wrong for its node, and
`Good` that every entry is fine and filed in the bucket of its node. Every operation but `evictAndAdd`
keeps a table good; `evictAndAdd` files whatever addresses it is given, so it does exactly if these are
fine (`Door`). A record outlives every operation but a note of its own pair, its eviction, and the end
of its hold (`Kept`). -/

namespace NMesh.Routing.Wrong

open Base.BigEndian Base.Utf8 Base.JsonText Base.Ordered Base.Runs
open NMesh.Cert.Identity NMesh.Routing.Address NMesh.Routing.Table

/-! ### Runs -/

inductive Op
  | add (nodeId : NodeID) (addresses : List Text) (dsaPub : Bytes)
  | evictAndAdd (nodeId : NodeID) (addresses : List Text) (dsaPub : Bytes)
  | touch (nodeId : NodeID)
  | noteWrongAddress (nodeId : NodeID) (address : Text) (answeredAs : NodeID)
  | dropAddress (nodeId : NodeID) (address : Text)
  | remove (nodeId : NodeID)
  | noteAnswered (nodeId : NodeID)
  | noteUnanswered (nodeId : NodeID)
  | importEntries (entries : List Json)

/-- An operation and when it is called. -/
structure Call where
  now : ℚ
  op : Op

/-- The table and the time of the last call. -/
structure Moment where
  table : RoutingTable
  clock : ℚ

variable (fromPublicKey : Bytes → NodeID)

/-- The table after an operation; one that raises leaves it alone. -/
def apply (now : ℚ) (t : RoutingTable) : Op → RoutingTable
  | .add nodeId addresses dsaPub => (t.add now nodeId addresses dsaPub).2
  | .evictAndAdd nodeId addresses dsaPub => (t.evictAndAdd now nodeId addresses dsaPub).getD t
  | .touch nodeId => (t.touch now nodeId).2
  | .noteWrongAddress nodeId address answeredAs => t.noteWrongAddress now nodeId address answeredAs
  | .dropAddress nodeId address => (t.dropAddress nodeId address).2
  | .remove nodeId => t.remove nodeId
  | .noteAnswered nodeId => t.noteAnswered now nodeId
  | .noteUnanswered nodeId => t.noteUnanswered now nodeId
  | .importEntries entries => t.importEntries fromPublicKey now entries

def step (s : Moment) (c : Call) : Moment := ⟨apply fromPublicKey c.now s.table c.op, c.now⟩

def Timely (s : Moment) (c : Call) : Prop := s.clock ≤ c.now

instance (s : Moment) (c : Call) : Decidable (Timely s c) := inferInstanceAs (Decidable (_ ≤ _))

/-- At most eight addresses, none held wrong for the node. -/
def Fine (t : RoutingTable) (now : ℚ) (nodeId : NodeID) (addresses : List Text) : Prop :=
  addresses.length ≤ maxAddresses ∧ ∀ a ∈ addresses, t.wrongAddress now nodeId a = none

/-- Does `evictAndAdd` file this node? -/
def evicts (t : RoutingTable) (nodeId : NodeID) : Bool :=
  match t.bucketIndex nodeId with
  | none => false
  | some i => decide ((t.buckets i).size ≠ 0)

/-- What `evictAndAdd` files is fine. -/
def Door (s : Moment) (c : Call) : Prop :=
  match c.op with
  | .evictAndAdd nodeId addresses _ =>
    evicts s.table nodeId = true → Fine s.table c.now nodeId addresses
  | _ => True

def Spares (key : NodeID × Text) (s : Moment) (c : Call) : Prop :=
  match c.op with
  | .noteWrongAddress nodeId address _ =>
    (nodeId, address) ≠ key ∧ (key ∈ (s.table.pruneWrong c.now).wrong.keys →
      key ∈ ((s.table.pruneWrong c.now).roomFor (nodeId, address)).keys)
  | _ => True

/-- Every entry, of whatever bucket, is the one `get` finds, and is fine now and until the next call. -/
def Clean (s : Moment) : Prop := ∀ later, s.clock ≤ later → ∀ i k e,
  (s.table.buckets i).get? k = some e → e.nodeId = k ∧ s.table.get k = some e ∧
    Fine s.table later k e.addresses

/-! ### Good tables -/

variable {t : RoutingTable} {now : ℚ} {nodeId : NodeID} {i : Fin 160}

def Filed (t : RoutingTable) (now : ℚ) (i : Fin 160) (k : NodeID) (e : NodeEntry) : Prop :=
  t.bucketIndex k = some i ∧ e.nodeId = k ∧ Fine t now k e.addresses

def Good (t : RoutingTable) (now : ℚ) : Prop :=
  ∀ i k e, (t.buckets i).get? k = some e → Filed t now i k e

variable {addresses : List Text}

theorem Fine.mono {now' : ℚ} (h : Fine t now nodeId addresses)
    (hle : now ≤ now') : Fine t now' nodeId addresses := by
  refine ⟨h.1, fun a ha => ?_⟩
  have hnone := h.2 a ha
  unfold RoutingTable.wrongAddress at hnone ⊢
  cases hget : t.wrong.get? (nodeId, a) with
  | none => rfl
  | some found =>
    rw [hget] at hnone
    dsimp only at hnone ⊢
    split_ifs at hnone with hlt
    rw [if_neg (fun h' => hlt (hle.trans_lt h'))]

theorem Good.mono {now' : ℚ} (h : Good t now) (hle : now ≤ now') : Good t now' :=
  fun i k e he => ⟨(h i k e he).1, (h i k e he).2.1, (h i k e he).2.2.mono hle⟩

variable {e : NodeEntry}

theorem get_of_bucket (h : Good t now) {k : NodeID}
    (he : (t.buckets i).get? k = some e) : t.get k = some e := by
  unfold RoutingTable.get
  rw [(h i k e he).1]
  exact he

theorem get_eq_some (he : t.get nodeId = some e) :
    ∃ i, t.bucketIndex nodeId = some i ∧ (t.buckets i).get? nodeId = some e := by
  unfold RoutingTable.get at he
  cases hi : t.bucketIndex nodeId with
  | none => rw [hi] at he; cases he
  | some i => rw [hi] at he; exact ⟨i, rfl, he⟩

theorem Good.setBucket (h : Good t now) {b : KBucket}
    (hb : ∀ k e, b.get? k = some e → Filed t now i k e) : Good (t.setBucket i b) now := by
  intro j k e he
  have hsame : Filed (t.setBucket i b) now j k e ↔ Filed t now j k e := Iff.rfl
  rw [hsame]
  unfold RoutingTable.setBucket at he
  dsimp only at he
  by_cases hj : j = i
  · subst hj
    rw [Function.update_self] at he
    exact hb k e he
  · rw [Function.update_of_ne hj] at he
    exact h j k e he

theorem Good.set (h : Good t now) {b : KBucket} {entry : NodeEntry}
    (hb : ∀ k e, b.get? k = some e → (t.buckets i).get? k = some e)
    (hentry : Filed t now i nodeId entry) : Good (t.setBucket i (b.set nodeId entry)) now := by
  exact h.setBucket (Dict.all_set (fun k e he => h i k e (hb k e he)) hentry)

theorem Good.edit (h : Good t now) {f : NodeEntry → NodeEntry}
    (hid : ∀ e, (f e).nodeId = e.nodeId) (hsub : ∀ e, (f e).addresses.Sublist e.addresses) :
    Good (t.edit nodeId f) now := by
  unfold RoutingTable.edit
  cases hi : t.bucketIndex nodeId with
  | none => exact h
  | some i =>
    dsimp only
    cases hget : (t.buckets i).get? nodeId with
    | none => exact h
    | some entry =>
      obtain ⟨h1, h2, h3⟩ := h i nodeId entry hget
      refine h.set (fun _ _ he => he) ⟨h1, (hid entry).trans h2, ?_, fun a ha => ?_⟩
      · exact (hsub entry).length_le.trans h3.1
      · exact h3.2 a ((hsub entry).subset ha)

theorem merged_nodeId (addresses : List Text) (dsaPub : Bytes) :
    (t.merged now nodeId addresses dsaPub).nodeId = nodeId := by
  unfold RoutingTable.merged
  cases t.get nodeId <;> rfl

theorem merged_fine (addresses : List Text) (dsaPub : Bytes) :
    Fine t now nodeId (t.merged now nodeId addresses dsaPub).addresses := by
  have hmerged : (t.merged now nodeId addresses dsaPub).addresses =
      (((addresses ++ ((t.get nodeId).map (·.addresses)).getD []).eraseDups.filter fun a =>
        t.wrongAddress now nodeId a = none).take maxAddresses) := by
    unfold RoutingTable.merged
    cases t.get nodeId <;> rfl
  rw [hmerged]
  refine ⟨List.length_take_le _ _, fun a ha => ?_⟩
  have hfilter := (List.mem_filter.mp (List.mem_of_mem_take ha)).2
  exact of_decide_eq_true hfilter

theorem Good.add (h : Good t now) (addresses : List Text) (dsaPub : Bytes) :
    Good (t.add now nodeId addresses dsaPub).2 now := by
  unfold RoutingTable.add
  cases hi : t.bucketIndex nodeId with
  | none => exact h
  | some i =>
    have hfiled : Filed t now i nodeId (t.merged now nodeId addresses dsaPub) :=
      ⟨hi, merged_nodeId addresses dsaPub, merged_fine addresses dsaPub⟩
    unfold KBucket.add
    dsimp only
    rw [merged_nodeId addresses dsaPub]
    split_ifs with hmem hsize
    · refine h.setBucket fun k e he => ?_
      rw [Dict.get?_moveToEnd] at he
      exact Dict.all_set (h i) hfiled k e he
    · exact h.set (fun _ _ he => he) hfiled
    · exact h.setBucket (h i)

theorem Good.touch (h : Good t now) : Good (t.touch now nodeId).2 now := by
  unfold RoutingTable.touch
  cases hi : t.bucketIndex nodeId with
  | none => exact h
  | some i =>
    dsimp only
    cases hget : (t.buckets i).get? nodeId with
    | none => exact h
    | some entry =>
      refine h.setBucket fun k e he => ?_
      rw [Dict.get?_moveToEnd] at he
      refine Dict.all_set (h i) ?_ k e he
      exact h i nodeId entry hget

theorem Good.remove (h : Good t now) : Good (t.remove nodeId) now := by
  unfold RoutingTable.remove
  cases hi : t.bucketIndex nodeId with
  | none => exact h
  | some i =>
    exact h.setBucket fun k e he => h i k e (Dict.get?_of_pop he).2

theorem Good.dropAddress (h : Good t now) (address : Text) :
    Good (t.dropAddress nodeId address).2 now := by
  unfold RoutingTable.dropAddress
  split
  · exact h
  · split_ifs
    · exact h.edit (fun _ => rfl) fun _ => List.filter_sublist
    · exact h

theorem get?_evictAndAdd {dsaPub : Bytes} (h : evicts t nodeId = true) :
    ∃ i, (((t.evictAndAdd now nodeId addresses dsaPub).getD t).buckets i).get? nodeId =
      some (NodeEntry.new nodeId addresses dsaPub now) := by
  unfold evicts at h
  unfold RoutingTable.evictAndAdd
  cases hi : t.bucketIndex nodeId with
  | none => rw [hi] at h; cases h
  | some i =>
    rw [hi] at h
    have hsize : (t.buckets i).size ≠ 0 := of_decide_eq_true h
    unfold KBucket.evictOldest RoutingTable.setBucket
    dsimp only
    rw [if_neg hsize]
    refine ⟨i, ?_⟩
    show (Function.update t.buckets i _ i).get? nodeId = _
    rw [Function.update_self]
    exact Dict.get?_set_self _ _ _

theorem evictAndAdd_wrong (addresses : List Text) (dsaPub : Bytes) :
    ((t.evictAndAdd now nodeId addresses dsaPub).getD t).wrong = t.wrong := by
  unfold RoutingTable.evictAndAdd KBucket.evictOldest
  split
  · rfl
  · split_ifs <;> rfl

theorem Good.evictAndAdd (h : Good t now) (dsaPub : Bytes)
    (hfine : evicts t nodeId = true → Fine t now nodeId addresses) :
    Good ((t.evictAndAdd now nodeId addresses dsaPub).getD t) now := by
  unfold evicts at hfine
  unfold RoutingTable.evictAndAdd KBucket.evictOldest
  cases hi : t.bucketIndex nodeId with
  | none => exact h
  | some i =>
    rw [hi] at hfine
    dsimp only at hfine ⊢
    split_ifs with hsize
    · exact h
    · exact h.set (fun _ _ he => Dict.get?_of_dropFirst he) ⟨hi, rfl, hfine (decide_eq_true hsize)⟩

theorem Good.importEntries : ∀ {entries : List Json} {t : RoutingTable}, Good t now →
    Good (t.importEntries fromPublicKey now entries) now
  | [], _, h => h
  | e :: entries, t, h => by
    rw [RoutingTable.importEntries]
    split
    · exact Good.importEntries h
    · split
      · exact h
      · exact Good.importEntries (h.add _ _)

/-! ### Notes -/

theorem get_edit {f : NodeEntry → NodeEntry} (he : t.get nodeId = some e) :
    (t.edit nodeId f).get nodeId = some (f e) := by
  obtain ⟨i, hi, hbucket⟩ := get_eq_some he
  have hedit : t.edit nodeId f = t.setBucket i ((t.buckets i).set nodeId (f e)) := by
    unfold RoutingTable.edit
    rw [hi]
    dsimp only
    rw [hbucket]
  have hindex : (t.edit nodeId f).bucketIndex nodeId = some i := by rw [hedit]; exact hi
  unfold RoutingTable.get
  rw [hindex, hedit]
  show (Function.update t.buckets i _ i).get? nodeId = some (f e)
  rw [Function.update_self, Dict.get?_set_self]

theorem notMem_dropAddress (h : Good t now) {address : Text}
    (he : ((t.dropAddress nodeId address).2.buckets i).get? nodeId = some e) : address ∉ e.addresses := by
  have hget := get_of_bucket (h.dropAddress address) he
  unfold RoutingTable.dropAddress at hget
  cases hold : t.get nodeId with
  | none => rw [hold] at hget; dsimp only at hget; rw [hold] at hget; cases hget
  | some entry =>
    rw [hold] at hget
    dsimp only at hget
    split_ifs at hget with hmem
    · rw [get_edit hold] at hget
      rw [← Option.some.inj hget]
      simp
    · rw [hold] at hget
      rw [← Option.some.inj hget]
      exact hmem

theorem dropAddress_wrong (address : Text) : (t.dropAddress nodeId address).2.wrong = t.wrong := by
  unfold RoutingTable.dropAddress RoutingTable.edit
  split
  · rfl
  · split_ifs
    · split
      · rfl
      · split <;> rfl
    · rfl

theorem get?_filterVal {κ ν : Type} [DecidableEq κ] {d : Dict κ ν} {p : ν → Bool} {k : κ} {v : ν} :
    (d.filterVal p).get? k = some v ↔ d.get? k = some v ∧ p v = true := by
  rw [Dict.get?_eq_some, Dict.get?_eq_some]
  exact List.mem_filter

variable {key : NodeID × Text} {row : Wrong}

theorem get?_roomFor {key' : NodeID × Text}
    (h : ((t.pruneWrong now).roomFor key).get? key' = some row) : t.wrong.get? key' = some row := by
  exact (get?_filterVal.mp (Dict.get?_of_pop (Dict.get?_of_makeRoom h)).2).1

theorem Good.noteWrongAddress (h : Good t now) (address : Text) (answeredAs : NodeID) :
    Good (t.noteWrongAddress now nodeId address answeredAs) now := by
  intro j k e he
  have hdrop : Good (t.dropAddress nodeId address).2 now := h.dropAddress address
  obtain ⟨h1, h2, h3, h4⟩ := hdrop j k e he
  refine ⟨h1, h2, h3, fun a ha => ?_⟩
  have hnone := h4 a ha
  unfold RoutingTable.wrongAddress at hnone ⊢
  unfold RoutingTable.noteWrongAddress
  dsimp only
  rw [Dict.get?_set]
  split_ifs with hkey
  · -- the pair just noted: its address was dropped
    cases hkey
    exact absurd ha (notMem_dropAddress h he)
  · cases hget : (((t.dropAddress nodeId address).2.pruneWrong now).roomFor
        (nodeId, address)).get? (k, a) with
    | none => rfl
    | some row =>
      rw [get?_roomFor hget] at hnone
      exact hnone

/-! ### Runs of calls -/

variable {fromPublicKey}

theorem Good.apply (h : Good t now) {op : Op} (hdoor : Door ⟨t, now⟩ ⟨now, op⟩) :
    Good (apply fromPublicKey now t op) now := by
  cases op with
  | add nodeId addresses dsaPub => exact h.add addresses dsaPub
  | evictAndAdd nodeId addresses dsaPub => exact h.evictAndAdd dsaPub hdoor
  | touch nodeId => exact h.touch
  | noteWrongAddress nodeId address answeredAs => exact h.noteWrongAddress address answeredAs
  | dropAddress nodeId address => exact h.dropAddress address
  | remove nodeId => exact h.remove
  | noteAnswered nodeId | noteUnanswered nodeId => exact h.edit (fun _ => rfl) fun _ => List.Sublist.refl _
  | importEntries entries => exact h.importEntries _

variable {s : Moment}

/-- **One call.** -/
theorem Good.step {c : Call} (h : Good s.table s.clock) (ht : Timely s c)
    (hdoor : Door s c) : Good (step fromPublicKey s c).table (step fromPublicKey s c).clock :=
  Good.apply (h.mono ht) hdoor

theorem clean_of_good (h : Good s.table s.clock) : Clean s := by
  intro later hle i k e he
  obtain ⟨-, h2, h3⟩ := h i k e he
  exact ⟨h2, get_of_bucket h he, h3.mono hle⟩

theorem door_of_clean {c : Call} (h : Clean (step fromPublicKey s c)) : Door s c := by
  unfold Door
  split
  · rename_i nodeId addresses dsaPub hop
    intro hevicts
    obtain ⟨i, hi⟩ := get?_evictAndAdd
      hevicts
    have htable : (step fromPublicKey s c).table =
        (s.table.evictAndAdd c.now nodeId addresses dsaPub).getD s.table := by
      show apply fromPublicKey c.now s.table c.op = _
      rw [hop]
      rfl
    rw [← htable] at hi
    have hfine := (h c.now le_rfl i nodeId _ hi).2.2
    refine ⟨hfine.1, fun a ha => ?_⟩
    have hnone := hfine.2 a ha
    unfold RoutingTable.wrongAddress at hnone ⊢
    rwa [htable, evictAndAdd_wrong] at hnone
  · trivial

/-- **A run keeps every entry fine exactly if whatever `evictAndAdd` files in it is.** -/
theorem run_clean : ∀ {calls : List Call} {s : Moment}, Good s.table s.clock →
    Guarded (step fromPublicKey) Timely s calls →
    (Guarded (step fromPublicKey) Door s calls ↔
      ∀ before, before <+: calls → Clean (run (step fromPublicKey) s before))
  | [], s, h, _ => by
    refine ⟨fun _ before hb => ?_, fun _ => trivial⟩
    rw [List.prefix_nil.mp hb]
    exact clean_of_good h
  | c :: calls, s, h, ht => by
    constructor
    · rintro ⟨hdoor, hrest⟩ before hb
      cases before with
      | nil => exact clean_of_good h
      | cons c' before =>
        obtain ⟨rfl, hb'⟩ := List.cons_prefix_cons.mp hb
        exact (run_clean (h.step ht.1 hdoor) ht.2).mp hrest before hb'
    · intro hclean
      have hdoor : Door s c :=
        door_of_clean (hclean [c] (List.cons_prefix_cons.mpr ⟨rfl, List.nil_prefix⟩))
      refine ⟨hdoor, (run_clean (h.step ht.1 hdoor) ht.2).mpr fun before hb => ?_⟩
      exact hclean (c :: before) (List.cons_prefix_cons.mpr ⟨rfl, hb⟩)

/-! ### Records -/

def Kept (key : NodeID × Text) (row : Wrong) (s : Moment) : Prop :=
  s.clock < row.heldUntil → s.table.wrong.get? key = some row

theorem add_wrong (addresses : List Text) (dsaPub : Bytes) :
    (t.add now nodeId addresses dsaPub).2.wrong = t.wrong := by
  unfold RoutingTable.add
  split <;> rfl

theorem edit_wrong (f : NodeEntry → NodeEntry) : (t.edit nodeId f).wrong = t.wrong := by
  unfold RoutingTable.edit
  split
  · rfl
  · split <;> rfl

theorem importEntries_wrong : ∀ {entries : List Json} {t : RoutingTable},
    (t.importEntries fromPublicKey now entries).wrong = t.wrong
  | [], _ => rfl
  | e :: entries, t => by
    rw [RoutingTable.importEntries]
    split
    · exact importEntries_wrong
    · split
      · rfl
      · rw [importEntries_wrong, add_wrong]

theorem apply_wrong {op : Op} (h : ∀ nodeId address answeredAs,
    op ≠ .noteWrongAddress nodeId address answeredAs) :
    (apply fromPublicKey now t op).wrong = t.wrong := by
  cases op with
  | add nodeId addresses dsaPub => exact add_wrong addresses dsaPub
  | evictAndAdd nodeId addresses dsaPub => exact evictAndAdd_wrong addresses dsaPub
  | touch nodeId =>
    show (t.touch now nodeId).2.wrong = t.wrong
    unfold RoutingTable.touch
    split
    · rfl
    · split <;> rfl
  | noteWrongAddress nodeId address answeredAs => exact absurd rfl (h nodeId address answeredAs)
  | dropAddress nodeId address => exact dropAddress_wrong address
  | remove nodeId =>
    show (t.remove nodeId).wrong = t.wrong
    unfold RoutingTable.remove
    split <;> rfl
  | noteAnswered nodeId | noteUnanswered nodeId => exact edit_wrong _
  | importEntries entries => exact importEntries_wrong

theorem get?_note {address : Text} {answeredAs : NodeID}
    (hrow : t.wrong.get? key = some row) (hnow : now < row.forgottenAt)
    (hne : (nodeId, address) ≠ key) (hroom : key ∈ (t.pruneWrong now).wrong.keys →
      key ∈ ((t.pruneWrong now).roomFor (nodeId, address)).keys) :
    (t.noteWrongAddress now nodeId address answeredAs).wrong.get? key = some row := by
  have hpruned : (t.pruneWrong now).wrong.get? key = some row :=
    get?_filterVal.mpr ⟨hrow, decide_eq_true hnow⟩
  obtain ⟨row', hrow'⟩ := Dict.mem_keys.mp (hroom (Dict.mem_keys_of_get? hpruned))
  have hsame : row' = row := by
    have hold := get?_roomFor hrow'
    rw [hrow] at hold
    exact (Option.some.inj hold).symm
  unfold RoutingTable.noteWrongAddress
  dsimp only
  rw [Dict.get?_set_of_ne _ hne]
  unfold RoutingTable.roomFor RoutingTable.pruneWrong at hrow' ⊢
  dsimp only at hrow' ⊢
  rw [dropAddress_wrong, hrow', hsame]

theorem Kept.next (hrow : row.heldUntil ≤ row.forgottenAt)
 {c : Call} (h : Kept key row s) (ht : Timely s c) (hs : Spares key s c) :
    Kept key row (step fromPublicKey s c) := by
  intro hlater
  have hlt : c.now < row.heldUntil := hlater
  have hget := h (ht.trans_lt hlt)
  by_cases hnote : ∃ nodeId address answeredAs, c.op = .noteWrongAddress nodeId address answeredAs
  · obtain ⟨nodeId, address, answeredAs, hop⟩ := hnote
    unfold Spares at hs
    rw [hop] at hs
    show (apply fromPublicKey c.now s.table c.op).wrong.get? key = some row
    rw [hop]
    exact get?_note hget (hlt.trans_le hrow) hs.1 hs.2
  · have hsame : (step fromPublicKey s c).table.wrong = s.table.wrong :=
      apply_wrong fun nodeId address answeredAs hop => hnote ⟨nodeId, address, answeredAs, hop⟩
    rw [hsame]
    exact hget

theorem Kept.after (hrow : row.heldUntil ≤ row.forgottenAt) :
    ∀ {calls : List Call} {s : Moment}, Kept key row s →
      Guarded (step fromPublicKey) Timely s calls → Guarded (step fromPublicKey) (Spares key) s calls →
      Kept key row (run (step fromPublicKey) s calls)
  | [], _, h, _, _ => h
  | c :: calls, s, h, ht, hs => by
    rw [run_cons]
    exact Kept.after hrow (h.next hrow ht.1 hs.1) ht.2 hs.2

theorem noted (t : RoutingTable) (now : ℚ) (nodeId : NodeID) (address : Text) (answeredAs : NodeID) :
    ∃ strikes row, (t.noteWrongAddress now nodeId address answeredAs).wrong.get? (nodeId, address) =
        some row ∧ row.answeredAs = answeredAs ∧
      row.heldUntil = now + RoutingTable.holdOf strikes ∧ row.heldUntil ≤ row.forgottenAt := by
  refine ⟨_, _, Dict.get?_set_self _ _ _, rfl, rfl, ?_⟩
  have hmax : (0 : ℚ) ≤ wrongAddressTtlMax := by decide +kernel
  exact le_add_of_nonneg_right hmax

theorem good_new (ownId : NodeID) (start : ℚ) : Good (RoutingTable.new ownId) start := by
  intro i k e he
  cases he

/-- **Wrong addresses stay out exactly if `evictAndAdd` lets none in.** In a run at times that do not go
back, every entry at every moment lists at most eight addresses, none held wrong for its node, if and only
if that is so of every list of addresses `evictAndAdd` files when it files it. And the record a note makes
is there until its hold ends, or its pair is noted again, or the bound evicts it; so that if `evictAndAdd`
lets none in, the node's entry does not list the address until then. -/
theorem wrong_stays_out (fromPublicKey : Bytes → NodeID) (ownId : NodeID) (start : ℚ)
    (calls : List Call) (ht : Guarded (step fromPublicKey) Timely ⟨.new ownId, start⟩ calls) :
    (Guarded (step fromPublicKey) Door ⟨.new ownId, start⟩ calls ↔
      ∀ before, before <+: calls → Clean (run (step fromPublicKey) ⟨.new ownId, start⟩ before)) ∧
    ∀ before now nodeId address answeredAs after,
      calls = before ++ ⟨now, .noteWrongAddress nodeId address answeredAs⟩ :: after →
      let noted := run (step fromPublicKey) ⟨.new ownId, start⟩
        (before ++ [⟨now, .noteWrongAddress nodeId address answeredAs⟩])
      let s := run (step fromPublicKey) noted after
      Guarded (step fromPublicKey) (Spares (nodeId, address)) noted after →
      ∃ strikes row, noted.table.wrong.get? (nodeId, address) = some row ∧
        row.answeredAs = answeredAs ∧ row.heldUntil = now + RoutingTable.holdOf strikes ∧
        ∀ later, s.clock ≤ later → later < row.heldUntil →
          s.table.wrong.get? (nodeId, address) = some row ∧
          (Guarded (step fromPublicKey) Door ⟨.new ownId, start⟩ calls →
            ∀ e, s.table.get nodeId = some e → address ∉ e.addresses) := by
  have hiff := run_clean (good_new ownId start) ht
  refine ⟨hiff, ?_⟩
  rintro before now nodeId address answeredAs after rfl start' s hspares
  obtain ⟨strikes, row, hrow, has, huntil, hforgotten⟩ := noted
    (run (step fromPublicKey) ⟨.new ownId, start⟩ before).table now nodeId address answeredAs
  have hstart : start'.table.wrong.get? (nodeId, address) = some row := by
    have hlast : start' = step fromPublicKey (run (step fromPublicKey) ⟨.new ownId, start⟩ before)
        ⟨now, .noteWrongAddress nodeId address answeredAs⟩ := run_concat _ _ _ _
    rw [hlast]
    exact hrow
  have happend : before ++ ⟨now, .noteWrongAddress nodeId address answeredAs⟩ :: after =
      (before ++ [⟨now, .noteWrongAddress nodeId address answeredAs⟩]) ++ after := by
    rw [List.append_assoc, List.singleton_append]
  refine ⟨strikes, row, hstart, has, huntil, fun later hle hlt => ?_⟩
  have hkept : s.table.wrong.get? (nodeId, address) = some row := by
    rw [happend, guarded_append] at ht
    exact Kept.after hforgotten (fun _ => hstart) ht.2 hspares (hle.trans_lt hlt)
  refine ⟨hkept, fun hdoor e he ha => ?_⟩
  obtain ⟨i, -, hbucket⟩ := get_eq_some he
  have hclean : Clean s := by
    have hall := hiff.mp hdoor _ (List.prefix_refl _)
    rwa [happend, run_append] at hall
  have hnone := (hclean later hle i nodeId e hbucket).2.2.2 address ha
  unfold RoutingTable.wrongAddress at hnone
  rw [hkept] at hnone
  dsimp only at hnone
  rw [if_pos hlt] at hnone
  cases hnone

/-! ### A run that lets one in, and one that does not -/

/-- The id whose last byte is `b`. -/
def idOf (b : UInt8) : NodeID := ⟨List.replicate 19 0 ++ [b], by simp⟩

def idOfKey (dsaPub : Bytes) : NodeID := idOf (dsaPub.headD 0)

def moved (rest : List Call) : List Call :=
  ⟨0, .add (idOf 1) [ascii "tcp://a:1"] []⟩ ::
    ⟨1, .noteWrongAddress (idOf 1) (ascii "tcp://a:1") (idOf 2)⟩ :: rest

/-- `evictAndAdd` puts it back while it is held wrong, and files nine addresses. -/
theorem let_in :
    let back := run (step idOfKey) ⟨.new (idOf 0), 0⟩
      (moved [⟨2, .evictAndAdd (idOf 1) [ascii "tcp://a:1"] []⟩])
    let nine := run (step idOfKey) ⟨.new (idOf 0), 0⟩
      (moved [⟨2, .evictAndAdd (idOf 1) (List.replicate 9 (ascii "tcp://b:1")) []⟩])
    Guarded (step idOfKey) Timely ⟨.new (idOf 0), 0⟩
        (moved [⟨2, .evictAndAdd (idOf 1) [ascii "tcp://a:1"] []⟩]) ∧
      back.table.wrongAddress 2 (idOf 1) (ascii "tcp://a:1") = some (idOf 2) ∧
      (back.table.get (idOf 1)).map (·.addresses) = some [ascii "tcp://a:1"] ∧
      (nine.table.get (idOf 1)).map (·.addresses.length) = some 9 := by
  decide +kernel

theorem kept_out : let calls := moved [⟨2, .evictAndAdd (idOf 1) [ascii "tcp://b:1"] []⟩,
      ⟨3, .add (idOf 1) [ascii "tcp://a:1"] []⟩]
    (Guarded (step idOfKey) Door ⟨.new (idOf 0), 0⟩ calls ↔
      ∀ before, before <+: calls → Clean (run (step idOfKey) ⟨.new (idOf 0), 0⟩ before)) ∧
    ∀ before now nodeId address answeredAs after,
      calls = before ++ ⟨now, .noteWrongAddress nodeId address answeredAs⟩ :: after →
      let noted := run (step idOfKey) ⟨.new (idOf 0), 0⟩
        (before ++ [⟨now, .noteWrongAddress nodeId address answeredAs⟩])
      let s := run (step idOfKey) noted after
      Guarded (step idOfKey) (Spares (nodeId, address)) noted after →
      ∃ strikes row, noted.table.wrong.get? (nodeId, address) = some row ∧
        row.answeredAs = answeredAs ∧ row.heldUntil = now + RoutingTable.holdOf strikes ∧
        ∀ later, s.clock ≤ later → later < row.heldUntil →
          s.table.wrong.get? (nodeId, address) = some row ∧
          (Guarded (step idOfKey) Door ⟨.new (idOf 0), 0⟩ calls →
            ∀ e, s.table.get nodeId = some e → address ∉ e.addresses) :=
  wrong_stays_out idOfKey (idOf 0) 0 _ (by decide +kernel)

end NMesh.Routing.Wrong
