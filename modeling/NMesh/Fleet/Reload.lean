import NMesh.Base.JsonCut
import NMesh.Fleet.Keeping
import Mathlib.Algebra.Order.BigOperators.Group.List

/-! # A ledger and its restart

A new ledger finds in the store what the old one held, but perhaps for the statuses, if the tables without their
statuses always fit in the budget (`restored_run`): sound tables are loaded as they were saved (`load_blob`). Where the
budget does not hold them, what is stored is cut JSON, and the new ledger is empty (`load_cut`). -/

namespace NMesh.Fleet.Reload

open Base.BigEndian Base.Utf8 Base.Hex Base.Ordered Base.JsonText Base.JsonRound
open Base.JsonStyle Base.JsonSize Base.JsonSteady Base.JsonCut Base.Runs NMesh.Fleet.Ledger
open NMesh.Fleet.Stored NMesh.Fleet.Keeping
open NMesh.Base
open Base.JsonRead (floats_wholeRepr)
open NMesh.Logs.Book (truthy)

variable {W : World}

/-! ### Loading -/

theorem mapVal_tidy {e : Entry} (he : SoundEntry W e) : e.mapVal tidy = e := by
  have hsame : e.entries.map (fun m => (m.1, tidy m.1 m.2)) = e.entries.map id :=
    List.map_congr_left fun m hm => Prod.ext rfl (he m.1 m.2 (Dict.get?_eq_some.mpr hm)).tidy
  exact Dict.ext (hsame.trans (List.map_id _))

theorem loadMap_tableJson {limit : ℕ} {d : Dict Text Entry} (hd : SoundTable W limit d) :
    loadMap limit (some (tableJson d)) = d := by
  refine Dict.foldl_refill d (fun e => (e.1, Json.obj e.2.entries)) fun e he d' hsize => ?_
  obtain ⟨-, hlen, hentry⟩ := hd.sound e.1 e.2 (Dict.get?_eq_some.mpr he)
  have hlimit := hd.size
  have hroom : ¬ (limit ≤ d'.size ∨ 64 < e.1.length) := by omega
  rw [loadEntry]
  dsimp only
  rw [if_neg hroom, entryOf_entries, mapVal_tidy hentry]

def groupEntry (g : Group) : Entry :=
  entryOf [(ascii "nodes", .arr (g.nodes.map .str)), (ascii "at", g.since)]

def groupTable (t : Tables) : Dict Text Entry := t.groups.mapVal fun _ g => groupEntry g

theorem groups_json (t : Tables) :
    Json.obj (t.groups.entries.map fun e => (e.1, groupJson e.2)) = tableJson (groupTable t) := by
  unfold tableJson groupTable Dict.mapVal
  rw [List.map_map]
  rfl

variable {t : Tables}

theorem sound_groupTable (hW : Lawful W) (ht : Sound W t) : SoundTable W maxGroups (groupTable t) := by
  refine ⟨by rw [groupTable, Dict.size_mapVal]; exact ht.groups.size, fun name e h => ?_⟩
  obtain ⟨g, hg, rfl⟩ := Dict.get?_of_mapVal h
  have hgroup := ht.groups.sound name g hg
  refine ⟨hgroup.name.steady, hgroup.name.short, soundEntry_entryOf ?_⟩
  simp only [List.forall_mem_cons]
  exact ⟨kept_plain (by decide) (savable_strs hW fun s hs => (steady_nodeHex (hgroup.nodes s hs)).1),
    kept_plain (by decide) hgroup.since, List.forall_mem_nil _⟩

theorem nodesIn_groupEntry (g : Group) : nodesIn (groupEntry g) = g.nodes := by
  have hget : (groupEntry g).get? (ascii "nodes") = some (.arr (g.nodes.map .str)) := rfl
  have htexts : (g.nodes.map Json.str).filterMap Json.text? = g.nodes := by
    rw [List.filterMap_map]
    exact List.filterMap_some
  unfold nodesIn
  rw [hget]
  exact htexts

theorem loadGroups_tableJson (hW : Lawful W) (now : Text) (ht : Sound W t) :
    (loadMap maxGroups (some (tableJson (groupTable t)))).entries.foldl (loadGroup W now) .empty = t.groups := by
  rw [loadMap_tableJson (sound_groupTable hW ht)]
  refine Dict.foldl_refill t.groups (fun e => (e.1, groupEntry e.2)) fun e he d' _ => ?_
  have hgroup := ht.groups.sound e.1 e.2 (Dict.get?_eq_some.mpr he)
  have hnodes : ((nodesIn (groupEntry e.2)).filter isNodeHex).take maxGroupNodes = e.2.nodes := by
    rw [nodesIn_groupEntry, List.filter_eq_self.mpr hgroup.nodes, List.take_of_length_le hgroup.few]
  have hsince : orElse ((groupEntry e.2).get? (ascii "at")) (.float now) = e.2.since := if_pos hgroup.set
  rw [loadGroup, if_neg hgroup.name.clean, hnodes, hsince]

theorem loadDocument_document (hW : Lawful W) (now : Text) (ht : Sound W t) :
    loadDocument W now (document t) = t := by
  obtain ⟨e, he⟩ := ht.logDefaults
  have hlogs : cleanLogEntry W (entryIn (some (.obj t.logDefaults.entries))) = t.logDefaults := by
    rw [entryIn, entryOf_entries, he, cleanLogEntry_again hW]
  have hgroups := loadGroups_tableJson hW now ht
  rw [← groups_json] at hgroups
  have hfields : loadDocument W now (document t) =
      ⟨loadMap maxOperators (some (tableJson t.operators)), loadMap maxManaged (some (tableJson t.managed)),
        loadMap maxPending (some (tableJson t.pendingIn)), loadMap maxPending (some (tableJson t.pendingOut)),
        loadMap maxProvisionRecords (some (tableJson t.provisioned)), loadMap maxSshKeys (some (tableJson t.sshKeys)),
        (loadMap maxGroups (some (.obj (t.groups.entries.map fun e => (e.1, groupJson e.2))))).entries.foldl
          (loadGroup W now) .empty,
        cleanLogEntry W (entryIn (some (.obj t.logDefaults.entries)))⟩ := rfl
  rw [hfields, loadMap_tableJson ht.operators, loadMap_tableJson ht.managed, loadMap_tableJson ht.pendingIn,
    loadMap_tableJson ht.pendingOut, loadMap_tableJson ht.provisioned, loadMap_tableJson ht.sshKeys, hgroups, hlogs]

/-! ### The document -/

/-- A value that may stand `n` levels above the values of an entry. -/
def Rises (W : World) (n : ℕ) (v : Json) : Prop := SteadyValue W.floatRepr compact v ∧ height v + n ≤ level W

theorem rises_obj {n : ℕ} {members : List (Text × Json)} (hnodup : (members.map Prod.fst).Nodup)
    (hn : n + 1 ≤ level W) (h : ∀ e ∈ members, Steady e.1 ∧ Rises W (n + 1) e.2) : Rises W n (.obj members) := by
  refine ⟨steady_obj (d := ⟨members, hnodup⟩) rfl fun e he => ⟨(h e he).1, (h e he).2.1⟩, ?_⟩
  have hheight : heightMembers members ≤ level W - (n + 1) := heightMembers_le.mpr fun e he => by
    have := (h e he).2.2
    omega
  rw [height]
  omega

theorem read_store {b : Bytes} (hne : b ≠ []) :
    (((some b).filter (· ≠ [])).bind decodeUtf8).bind (loads W.floatRepr W.depth) =
      (decodeUtf8 b).bind (loads W.floatRepr W.depth) := by simp [Option.filter, hne]

section Document

variable (hW : Lawful W)
include hW

theorem rises_table {limit : ℕ} {d : Dict Text Entry} (hd : SoundTable W limit d) : Rises W 1 (tableJson d) := by
  have hlevel := hW.level
  refine rises_obj (d.mapVal fun _ e => Json.obj e.entries).nodup (by omega) fun m hm => ?_
  obtain ⟨e, he, rfl⟩ := List.mem_map.mp hm
  obtain ⟨hkey, -, hentry⟩ := hd.sound e.1 e.2 (Dict.get?_eq_some.mpr he)
  refine ⟨hkey, rises_obj e.2.nodup (by omega) fun v hv => ?_⟩
  have hkept := hentry v.1 v.2 (Dict.get?_eq_some.mpr hv)
  exact ⟨hkept.steady, hkept.savable⟩

theorem rises_document {t : Tables} (ht : Sound W t) : Rises W 0 (document t) := by
  have hlevel := hW.level
  have hlogs : Rises W 1 (.obj t.logDefaults.entries) := by
    obtain ⟨e, he⟩ := ht.logDefaults
    obtain ⟨hsteady, hheight⟩ := savable_logs hW (he ▸ soundLogs_cleanLogEntry hW e)
    exact ⟨hsteady, by omega⟩
  have hgroups : Rises W 1 (.obj (t.groups.entries.map fun e => (e.1, groupJson e.2))) := by
    rw [groups_json]
    exact rises_table hW (sound_groupTable hW ht)
  have hnodup : ([ascii "operators", ascii "managed", ascii "pending_in", ascii "pending_out", ascii "provisioned",
    ascii "ssh_keys", ascii "groups", ascii "log_defaults"] : List Text).Nodup := by decide
  refine rises_obj hnodup (by omega) ?_
  simp only [List.forall_mem_cons]
  exact ⟨⟨steady_of_ascii (by decide), rises_table hW ht.operators⟩,
    ⟨steady_of_ascii (by decide), rises_table hW ht.managed⟩, ⟨steady_of_ascii (by decide), rises_table hW ht.pendingIn⟩,
    ⟨steady_of_ascii (by decide), rises_table hW ht.pendingOut⟩,
    ⟨steady_of_ascii (by decide), rises_table hW ht.provisioned⟩,
    ⟨steady_of_ascii (by decide), rises_table hW ht.sshKeys⟩, ⟨steady_of_ascii (by decide), hgroups⟩,
    ⟨steady_of_ascii (by decide), hlogs⟩, List.forall_mem_nil _⟩

variable {l : Ledger}

theorem store_save (ht : Sound W l.tables) :
    (save W l).store = some ((blob compact (document (shed l.tables))).take stateBudget) := by
  have hheight := (rises_document hW ht).2
  have hlevel : level W ≤ W.dumpDepth := min_le_right _ _
  exact if_neg (by omega)

/-- **Sound tables are loaded as they were saved**, but for the requests that went stale. -/
theorem load_blob {t : Tables} (ht : Sound W t) (now : Text) :
    load W now (some (blob compact (document t))) = expirePending W now t := by
  obtain ⟨hsteady, hheight⟩ := rises_document hW ht
  have hlevel : level W ≤ W.depth := min_le_left _ _
  have hread : (decodeUtf8 (blob compact (document t))).bind (loads W.floatRepr W.depth) = some (document t) :=
    loads_blob rfl hsteady (by omega)
  have hne : blob compact (document t) ≠ [] := blob_ne_nil hsteady.ascii (List.cons_ne_nil _ _)
  unfold load
  rw [read_store hne, hread]
  show expirePending W now (loadDocument W now (document t)) = _
  rw [loadDocument_document hW now ht]

theorem load_cut (ht : Sound W l.tables)
    (hlarge : stateBudget < (blob compact (document (shed l.tables))).length) (now : Text) :
    load W now (save W l).store = noTables W := by
  obtain ⟨hsteady, hheight⟩ := rises_document hW ht.shed
  have hlevel : level W ≤ W.depth := min_le_left _ _
  have hlength := length_blob hsteady.ascii
  have hcut : loads W.floatRepr W.depth ((write compact (document (shed l.tables))).take stateBudget) = none := by
    have hdepth : height (document (shed l.tables)) ≤ W.depth := by omega
    refine loads_cut rfl hsteady.plain hdepth (List.take_append_drop stateBudget _).symm ?_
    intro hnil
    have hshort : (write compact (document (shed l.tables))).length ≤ stateBudget := List.drop_eq_nil_iff.mp hnil
    omega
  rw [store_save hW ht]
  unfold load
  by_cases hempty : (blob compact (document (shed l.tables))).take stateBudget = []
  · rw [hempty]
    rfl
  · rw [read_store hempty, decode_take hsteady.ascii, Option.bind_some, hcut]

end Document

/-! ### Runs -/

/-- **The tables without their statuses fit in the store.** -/
def Fits (t : Tables) : Prop := (blob compact (document (trimmed t))).length ≤ stateBudget

instance decidableFits (t : Tables) : Decidable (Fits t) :=
  inferInstanceAs (Decidable ((blob compact (document (trimmed t))).length ≤ stateBudget))

/-- **What a new ledger holds of an old one**: everything, but perhaps the statuses, and the requests that went stale. -/
structure Restored (W : World) (now : Text) (loaded t : Tables) : Prop where
  operators : loaded.operators = t.operators
  managed : loaded.managed = t.managed ∨ loaded.managed = (trimmed t).managed
  pendingIn : loaded.pendingIn = expire W now t.pendingIn
  pendingOut : loaded.pendingOut = expire W now t.pendingOut
  provisioned : loaded.provisioned = t.provisioned
  sshKeys : loaded.sshKeys = t.sshKeys
  groups : loaded.groups = t.groups
  logDefaults : loaded.logDefaults = t.logDefaults

/-- **A careful action**: the clock is not set back, what comes in comes back from JSON as it went, and what is saved
fits without its statuses. -/
structure Careful (W : World) (l : Ledger) (a : Action) : Prop where
  time : Time W a.1
  later : l.clock ≤ W.seconds (.float a.1)
  proper : Proper W a.2
  fits : (operate W a.1 l.tables a.2).2 = true → Fits (operate W a.1 l.tables a.2).1

variable {now : Text}

theorem expire_expire {now' : Text} (h : W.seconds (.float now) ≤ W.seconds (.float now')) (d : Dict Text Entry) :
    expire W now' (expire W now d) = expire W now' d := by
  refine Dict.filterVal_filterVal (fun e hfresh => ?_) d
  have hfresh := of_decide_eq_true hfresh
  exact decide_eq_true ((sub_le_sub_right h _).trans hfresh)

theorem expirePending_again {now' : Text} (h : W.seconds (.float now) ≤ W.seconds (.float now')) (t : Tables) :
    expirePending W now' (expirePending W now t) = expirePending W now' t := by
  unfold expirePending
  rw [expire_expire h, expire_expire h]

theorem Fits.shed (h : Fits t) :
    (blob compact (document (shed t))).length ≤ stateBudget ∧ shed (shed t) = shed t := by
  by_cases hlarge : stateBudget < (blob compact (document t)).length
  · have hshed : Stored.shed t = trimmed t := if_pos hlarge
    have hsmall : ¬ stateBudget < (blob compact (document (trimmed t))).length := Nat.not_lt.mpr h
    rw [hshed]
    exact ⟨h, if_neg hsmall⟩
  · have hshed : Stored.shed t = t := if_neg hlarge
    rw [hshed, hshed]
    exact ⟨Nat.not_lt.mp hlarge, rfl⟩

/-- **The store keeps up with the tables.** -/
structure Near (W : World) (l : Ledger) (saved : Tables) : Prop where
  sound : Sound W l.tables
  stored : Sound W saved
  twice : shed (shed saved) = shed saved
  loads : ∀ now, load W now l.store = expirePending W now (shed saved)
  same : ∀ now, l.clock ≤ W.seconds (.float now) → expirePending W now l.tables = expirePending W now saved

theorem near_fresh : Near W (fresh W) (noTables W) := by
  have hshed : shed (noTables W) = noTables W := by
    unfold shed
    split_ifs <;> rfl
  refine ⟨sound_noTables, sound_noTables, by rw [hshed, hshed], fun now => ?_, fun _ _ => rfl⟩
  rw [hshed]
  rfl

theorem Near.restored {saved : Tables} (h : Near W l saved)
    (hnow : l.clock ≤ W.seconds (.float now)) : Restored W now (load W now l.store) l.tables := by
  have hsame := h.same now hnow
  rw [h.loads]
  -- shedding touches only the managed nodes, and going stale only the requests
  have hshed : shed saved = { saved with managed := (shed saved).managed } := by
    unfold shed
    split_ifs <;> rfl
  have hmanaged : (shed saved).managed = saved.managed ∨ (shed saved).managed = (trimmed saved).managed := by
    unfold shed
    split_ifs
    · exact Or.inr rfl
    · exact Or.inl rfl
  have hkept : saved.managed = l.tables.managed := (congrArg Tables.managed hsame).symm
  have htrimmed : (trimmed saved).managed = (trimmed l.tables).managed := by
    unfold trimmed
    rw [hkept]
  rw [hshed]
  refine ⟨(congrArg Tables.operators hsame).symm, ?_, (congrArg Tables.pendingIn hsame).symm,
    (congrArg Tables.pendingOut hsame).symm, (congrArg Tables.provisioned hsame).symm,
    (congrArg Tables.sshKeys hsame).symm, (congrArg Tables.groups hsame).symm,
    (congrArg Tables.logDefaults hsame).symm⟩
  rw [← hkept, ← htrimmed]
  exact hmanaged

theorem step_operate {op : Operation} (hop : op ≠ .restart) : step W l (now, op) =
      if (operate W now l.tables op).2 then
        save W { l with tables := (operate W now l.tables op).1, clock := W.seconds (.float now) }
      else { l with tables := (operate W now l.tables op).1, clock := W.seconds (.float now) } := by
  cases op with
  | restart => exact absurd rfl hop
  | _ => rfl

theorem near_step (hW : Lawful W) {saved : Tables} (h : Near W l saved) {a : Action} (ha : Careful W l a) :
    ∃ saved', Near W (step W l a) saved' := by
  obtain ⟨now, op⟩ := a
  by_cases hop : op = .restart
  · subst hop
    refine ⟨shed saved, ?_, h.stored.shed, by rw [h.twice, h.twice], fun now' => ?_, fun now' hnow' => ?_⟩
    · show Sound W (load W now l.store)
      rw [h.loads]
      exact h.stored.shed.expirePending now
    · rw [h.twice]
      exact h.loads now'
    · show expirePending W now' (load W now l.store) = _
      rw [h.loads, expirePending_again hnow']
  · have hsound := sound_operate hW ha.time h.sound ha.proper
    rw [step_operate hop]
    split_ifs with hsaved
    · obtain ⟨hsmall, htwice⟩ := (ha.fits hsaved).shed
      refine ⟨(operate W now l.tables op).1, hsound, hsound, htwice, fun now' => ?_, fun _ _ => rfl⟩
      rw [store_save hW hsound, List.take_of_length_le hsmall, load_blob hW hsound.shed]
    · refine ⟨saved, hsound, h.stored, h.twice, h.loads, fun now' hnow' => ?_⟩
      have hlater := ha.later.trans hnow'
      rcases operate_unsaved (Bool.not_eq_true _ ▸ hsaved) with hsame | hsame
      · show expirePending W now' (operate W now l.tables op).1 = _
        rw [hsame]
        exact h.same now' hlater
      · show expirePending W now' (operate W now l.tables op).1 = _
        rw [hsame, expirePending_again hnow']
        exact h.same now' hlater

/-- **The ledger survives a restart**, in every run in which what is saved fits without its statuses. -/
theorem restored_run (hW : Lawful W) {as : List Action} (h : Guarded (step W) (Careful W) (fresh W) as) {now : Text}
    (hnow : (run (step W) (fresh W) as).clock ≤ W.seconds (.float now)) :
    Restored W now (load W now (run (step W) (fresh W) as).store) (run (step W) (fresh W) as).tables := by
  obtain ⟨saved, hnear⟩ := h.run_induct (P := fun l => ∃ saved, Near W l saved)
    (fun _ _ hs ha => hs.elim fun _ hnear => near_step hW hnear ha) ⟨_, near_fresh⟩
  exact hnear.restored hnow

/-! ### A ledger that is lost -/

def wholeWorld : World where
  floatRepr := wholeRepr
  depth := 16
  dumpDepth := 16
  chars := Chars.asciiTables
  seconds v := match v with
    | .float text => ofDigits (text.takeWhile isDigit)
    | _ => 0
  normal v := match v with
    | some (.str s) => s
    | _ => []
  float v := match v with
    | some (.float text) => some text
    | _ => none
  positive _ := true
  bounded := wholeRepr

theorem wholeRepr_shape (text : Text) : ∃ n, wholeRepr text = digits n ++ [0x2E, 0x30] := by
  by_cases h : text = digits (ofDigits (text.takeWhile isDigit)) ++ [0x2E, 0x30]
  · exact ⟨_, (if_pos h).trans h⟩
  · exact ⟨0, if_neg h⟩

theorem ascii_wholeRepr (text : Text) : Ascii (dumpFloat (wholeRepr text)) := by
  obtain ⟨n, hn⟩ := wholeRepr_shape text
  rw [hn, dumpFloat_whole, ascii_append]
  refine ⟨fun c hc => ?_, by decide⟩
  obtain ⟨_, _, -, -, hall⟩ := digits_shape n
  have hc := of_decide_eq_true (hall c hc)
  omega

theorem lawful_wholeWorld : Lawful wholeWorld where
  deep := by decide
  dumpDeep := by decide
  normal _ _ := rfl
  float _ := rfl
  default := ⟨rfl, by decide +kernel⟩
  defaultText := floatText_wholeRepr 2
  again v _ := by
    obtain ⟨n, hn⟩ := wholeRepr_shape v
    refine ⟨rfl, ?_⟩
    show wholeRepr (wholeRepr v) = wholeRepr v
    rw [hn, wholeRepr_digits]
  text v _ := ⟨floats_wholeRepr v, ascii_wholeRepr v⟩

def noon : Text := ascii "1000.0"

theorem time_noon : Time wholeWorld noon where
  text := floatText_wholeRepr 1000
  ascii := by decide
  set := by decide

def node (i : ℕ) : Text := toHex (List.replicate 19 0 ++ [UInt8.ofNat i])

def visit : List Action :=
  [(noon, .addManaged (node 1) [.status, .shell] (ascii "box") [1, 2, 3]),
    (noon, .recordStatus (node 1) (.obj [])), (noon, .setGroup (ascii "home") [node 1])]

theorem restored_visit : Restored wholeWorld noon
    (load wholeWorld noon (run (step wholeWorld) (fresh wholeWorld) visit).store)
    (run (step wholeWorld) (fresh wholeWorld) visit).tables := by
  have hstatus : Savable wholeWorld (.obj []) := savable_logs (d := .empty) lawful_wholeWorld soundLogs_empty
  refine restored_run lawful_wholeWorld ?_ ?_
  · simp only [visit, Guarded]
    refine ⟨⟨time_noon, ?_, steady_of_ascii (by decide), fun _ => ?_⟩, ⟨time_noon, ?_, hstatus, fun _ => ?_⟩,
      ⟨time_noon, ?_, steady_of_ascii (by decide), fun _ => ?_⟩, trivial⟩
    all_goals decide +kernel
  · decide +kernel

def enrol (i : ℕ) : Operation := .addOperator (node i) [1] [.status] [] (List.replicate 3072 0)

def crowd (n : ℕ) : List Action := (List.range n).map fun i => (noon, enrol i)

theorem crowd_succ (n : ℕ) : crowd (n + 1) = crowd n ++ [(noon, enrol n)] := by
  rw [crowd, List.range_succ, List.map_append, List.map_singleton]
  rfl

theorem enrol_ne_restart (i : ℕ) : enrol i ≠ .restart := by
  unfold enrol
  intro h
  cases h

theorem isNodeHex_node (i : ℕ) : isNodeHex (node i) = true := by
  refine decide_eq_true ⟨?_, ?_⟩
  · rw [node, length_toHex]
    rfl
  · rw [node, fromHex_toHex]
    rfl

theorem node_inj {i j : ℕ} (hi : i < 256) (hj : j < 256) (h : node i = node j) : i = j := by
  have hbyte := List.append_cancel_left (toHex_inj h)
  have := congrArg UInt8.toNat (List.cons.inj hbyte).1
  rwa [toNat_ofNat hi, toNat_ofNat hj] at this

/-- **What a crowd leaves**: its operators, and tables that are too large. -/
structure Crowded (n : ℕ) (t : Tables) : Prop where
  sound : Sound wholeWorld t
  size : t.operators.size = n
  keys : ∀ key ∈ t.operators.keys, ∃ i < n, key = node i
  large : ∀ e ∈ t.operators.entries, 4096 ≤ (write compact (.obj e.2.entries)).length

theorem crowded_add {n : ℕ} (hn : n < maxOperators) (h : Crowded n t) :
    (operate wholeWorld noon t (enrol n)).2 = true ∧ Crowded (n + 1) (operate wholeWorld noon t (enrol n)).1 := by
  have hlimit : maxOperators = 64 := rfl
  have hnew : node n ∉ t.operators.keys := by
    intro hmem
    obtain ⟨i, hi, heq⟩ := h.keys _ hmem
    have := node_inj (by omega) (by omega) heq
    omega
  have hsize := h.size
  have hsteady : Steady [] := steady_of_ascii fun c hc => absurd hc List.not_mem_nil
  have hsound : Sound wholeWorld (addOperator noon t (node n) [1] [.status] [] (List.replicate 3072 0)).1 :=
    sound_addOperator lawful_wholeWorld time_noon h.sound hsteady
  have hbad : ¬ (clean [.status] = [] ∨ isNodeHex (node n) = false ∨ ([1] : Bytes) = []) := by
    rw [isNodeHex_node]
    decide
  have hfree : ¬ (node n ∉ t.operators.keys ∧ maxOperators ≤ t.operators.size) := by omega
  unfold enrol operate
  dsimp only
  unfold addOperator at hsound ⊢
  rw [if_neg hbad, if_neg hfree] at hsound ⊢
  refine ⟨rfl, hsound, ?_, fun key hkey => ?_, fun e he => ?_⟩
  · exact (Dict.size_set_of_notMem hnew _).trans (by rw [hsize])
  · rcases Dict.mem_keys_set.mp hkey with rfl | hkey
    · exact ⟨n, by omega, rfl⟩
    · obtain ⟨i, hi, heq⟩ := h.keys key hkey
      exact ⟨i, by omega, heq⟩
  · dsimp only at he
    rw [Dict.entries_set_of_notMem hnew] at he
    rcases List.mem_append.mp he with he | he
    · exact h.large e he
    · rw [List.mem_singleton.mp he]
      -- the request alone is 4096 characters in base 64
      have hproof : 4096 ≤ (write compact (.str (Base64.encode (List.replicate 3072 0)))).length := by
        have hlen := length_le_write_str (S := compact) (Base64.encode (List.replicate 3072 0))
        rw [Base64.length_encode, List.length_replicate] at hlen
        omega
      refine hproof.trans (length_le_write_obj (e := (ascii "proof", .str (Base64.encode (List.replicate 3072 0)))) ?_)
      exact Dict.get?_eq_some.mp rfl

theorem crowded_run : ∀ {n : ℕ}, n ≤ maxOperators → Crowded n (run (step wholeWorld) (fresh wholeWorld) (crowd n)).tables
  | 0, _ => ⟨sound_noTables, rfl, fun _ h => absurd h List.not_mem_nil, fun _ h => absurd h List.not_mem_nil⟩
  | n + 1, hn => by
    obtain ⟨hsaved, hadd⟩ := crowded_add (by omega) (crowded_run (n := n) (by omega))
    rw [crowd_succ, run_concat, step_operate (enrol_ne_restart n), if_pos hsaved]
    exact hadd

theorem length_crowded {n : ℕ} (h : Crowded n t) : n * 4096 ≤ (blob compact (document (shed t))).length := by
  have hshed : (shed t).operators = t.operators := by
    unfold shed
    split_ifs <;> rfl
  have hmem : (ascii "operators", tableJson t.operators) ∈
      [(ascii "operators", tableJson (shed t).operators), (ascii "managed", tableJson (shed t).managed),
        (ascii "pending_in", tableJson (shed t).pendingIn), (ascii "pending_out", tableJson (shed t).pendingOut),
        (ascii "provisioned", tableJson (shed t).provisioned), (ascii "ssh_keys", tableJson (shed t).sshKeys),
        (ascii "groups", .obj ((shed t).groups.entries.map fun e => (e.1, groupJson e.2))),
        (ascii "log_defaults", .obj (shed t).logDefaults.entries)] := by
    rw [hshed]
    exact List.mem_cons_self
  have htable : (write compact (tableJson t.operators)).length ≤ (write compact (document (shed t))).length :=
    length_le_write_obj hmem
  have hsum := sum_le_write_obj (S := compact) (t.operators.entries.map fun e => (e.1, Json.obj e.2.entries))
  have hlarge := List.card_nsmul_le_sum
    ((t.operators.entries.map fun e => (e.1, Json.obj e.2.entries)).map fun e => (write compact e.2).length) 4096
    fun x hx => by
      obtain ⟨_, hmember, rfl⟩ := List.mem_map.mp hx
      obtain ⟨e, he, rfl⟩ := List.mem_map.mp hmember
      exact h.large e he
  have hsize : t.operators.entries.length = n := h.size
  rw [List.length_map, List.length_map, nsmul_eq_mul, hsize] at hlarge
  rw [length_blob (rises_document lawful_wholeWorld h.sound.shed).1.ascii]
  exact hlarge.trans (hsum.trans htable)

theorem load_crowd {n : ℕ} (hn : n < maxOperators) (hlarge : stateBudget < (n + 1) * 4096) (now : Text) :
    load wholeWorld now (run (step wholeWorld) (fresh wholeWorld) (crowd (n + 1))).store = noTables wholeWorld := by
  obtain ⟨hsaved, hlast⟩ := crowded_add hn (crowded_run hn.le)
  rw [crowd_succ, run_concat, step_operate (enrol_ne_restart n), if_pos hsaved]
  exact load_cut lawful_wholeWorld hlast.sound (hlarge.trans_le (length_crowded hlast)) now

/-- **Sixty operators are lost**: a new ledger finds none of them. -/
theorem crowd_lost : ¬ ∀ (as : List Action) (now : Text),
    (∀ a ∈ as, a.1 = now ∧ Time wholeWorld a.1 ∧ Proper wholeWorld a.2) →
    Restored wholeWorld now (load wholeWorld now (run (step wholeWorld) (fresh wholeWorld) as).store)
      (run (step wholeWorld) (fresh wholeWorld) as).tables := by
  intro h
  have hproper : ∀ a ∈ crowd (59 + 1), a.1 = noon ∧ Time wholeWorld a.1 ∧ Proper wholeWorld a.2 := by
    intro a ha
    obtain ⟨i, -, rfl⟩ := List.mem_map.mp ha
    exact ⟨rfl, time_noon, steady_of_ascii fun c hc => absurd hc List.not_mem_nil⟩
  have hrestored := (h (crowd (59 + 1)) noon hproper).operators
  have hsize := (crowded_run (n := 59 + 1) (by decide)).size
  rw [← hrestored, load_crowd (by decide) (by decide)] at hsize
  exact absurd hsize (by decide)

end NMesh.Fleet.Reload
