import NMesh.Base.Runs
import NMesh.Storage.Drawers

/-! # What an app stored is there after a restart

A run is calls and restarts over one directory. As long as every drawer that is written fits its file,
every file operation succeeds and no drawer is opened beyond the limit, a new storage answers as the
running one does, the bounds hold, and a refused `put` changes nothing (`durable`). A drawer of long keys
outgrows the file that is read, and is gone after a restart (`lost_drawer`). -/

namespace NMesh.Storage.Kept

open Base.BigEndian Base.Utf8 Base.Ordered Base.JsonText
open Base.JsonStyle Base.Runs NMesh.Base NMesh.Storage.Drawers

variable (W : World)

/-- The drawer of an app as it stands: the one in memory, or what its file holds. -/
def drawerOf (st : AppStorage) (app : AppId) : Drawer :=
  if app ∈ st.loaded then (st.drawers.get? app).getD .empty else readFile W true st.files app

inductive Call
  | get (reads : Bool) (app : AppId) (key : Text)
  | put (env : Env) (app : AppId) (key : Text) (value : Bytes)
  | delete (env : Env) (app : AppId) (key : Text)
  | listKeys (reads : Bool) (app : AppId)
  | restart

def step (st : AppStorage) : Call → AppStorage
  | .get reads app key => (get W reads st app key).1
  | .put env app key value => (put W env st app key value).1
  | .delete env app key => (delete W env st app key).1
  | .listKeys reads app => (listKeys W reads st app).1
  | .restart => fresh st.files

/-! ### The condition -/

/-- The drawer is open, or there is room for one more and its file can be read. -/
def Opens (st : AppStorage) (app : AppId) (reads : Bool) : Prop :=
  app ∈ st.loaded ∨ reads = true ∧ st.drawers.size < maxDrawers

/-- A drawer is written as a whole, and its file can be read. -/
def Written (env : Env) (drawer : Drawer) : Prop := Writable drawer ∧ env.write = .all

/-- **The condition.** Only `put` may come when all drawers are taken; a file that is read can be read, and
what is written can be read again. -/
def Safe (st : AppStorage) : Call → Prop
  | .get reads app key => validId app = true → validKey key = true → Opens st app reads
  | .put env app key value => validId app = true → validKey key = true → value.length ≤ maxValue →
      app ∈ st.loaded ∨ st.drawers.size < maxDrawers → Opens st app env.reads ∧
        (Fits (drawerOf W st app) key value → Written env ((drawerOf W st app).set key value))
  | .delete env app key => validId app = true → validKey key = true → Opens st app env.reads ∧
      (key ∈ (drawerOf W st app).keys → Written env ((drawerOf W st app).pop key))
  | .listKeys reads app => validId app = true → Opens st app reads
  | .restart => True

/-- No file holds more than a drawer may: only this node can write one that is read. -/
def Honest (files : AppId → Option Bytes) : Prop :=
  ∀ app, total (readFile W true files app) ≤ maxDrawerBytes

/-- **The invariant.** What is in memory is what the files hold. -/
structure Inv (st : AppStorage) : Prop where
  same : ∀ app, app ∈ st.drawers.keys ↔ app ∈ st.loaded
  held : ∀ app drawer, st.drawers.get? app = some drawer → drawer = readFile W true st.files app
  count : st.drawers.size ≤ maxDrawers
  honest : Honest W st.files

variable {W}

theorem inv_fresh {files : AppId → Option Bytes} (h : Honest W files) : Inv W (fresh files) :=
  ⟨fun _ => Iff.rfl, fun _ _ hget => (by cases hget), Nat.zero_le _, h⟩

variable {st : AppStorage}

theorem drawerOf_eq (h : Inv W st) (app : AppId) : drawerOf W st app = readFile W true st.files app := by
  unfold drawerOf
  split_ifs with hl
  · obtain ⟨drawer, hget⟩ := Dict.mem_keys.mp ((h.same app).mpr hl)
    rw [hget]
    exact h.held app drawer hget
  · rfl

theorem within_readFile {files : AppId → Option Bytes} (h : Honest W files) (app : AppId) :
    Within (readFile W true files app) :=
  ⟨shaped_readFile W true files app, h app⟩

variable {app : AppId}

theorem load_spec (h : Inv W st) {reads : Bool} (ho : Opens st app reads) :
    Inv W (load W reads st app).1 ∧ (load W reads st app).2 = readFile W true st.files app ∧
      (load W reads st app).1.files = st.files := by
  by_cases hl : app ∈ st.loaded
  · obtain ⟨drawer, hget⟩ := Dict.mem_keys.mp ((h.same app).mpr hl)
    rw [load_open hl hget]
    exact ⟨h, h.held app drawer hget, rfl⟩
  · rcases ho with ho | ⟨rfl, hroom⟩
    · exact absurd ho hl
    · have hnew : app ∉ st.drawers.keys := fun hmem => hl ((h.same app).mp hmem)
      have hload : load W true st app = ({ st with
          loaded := app :: st.loaded, drawers := st.drawers.set app (readFile W true st.files app) },
          readFile W true st.files app) := by
        unfold load
        rw [if_neg hl]
      rw [hload]
      refine ⟨⟨fun a => ?_, fun a drawer hget => ?_, ?_, h.honest⟩, rfl, rfl⟩
      · rw [Dict.mem_keys_set, List.mem_cons, h.same a]
      · rcases Dict.get?_of_set hget with ⟨rfl, rfl⟩ | ⟨-, hget⟩
        · rfl
        · exact h.held a drawer hget
      · rw [Dict.size_set_of_notMem hnew]
        omega

variable {drawer : Drawer}

/-- **What keeping a drawer does**: it is in memory and in its file. -/
theorem keep_spec (hW : Ideal W) (h : Inv W st) (hl : app ∈ st.loaded)
    {env : Env} (hwithin : Within drawer) (hwritten : Written env drawer) :
    Inv W (keep W env st app drawer).1 ∧ (keep W env st app drawer).2 = .answered true := by
  obtain ⟨hwritable, hall⟩ := hwritten
  have hblob := blobOf_eq (W := W) (fun k hk => (hwritable.whole k hk).1) env.nonce app
  have hseal := read_sealed hW hwithin.toShaped hwritable hblob
  have hkeep : ∃ blob, readBlob W app blob = drawer ∧ keep W env st app drawer =
      ({ st with drawers := st.drawers.set app drawer,
                 files := Function.update st.files app (some blob) }, .answered true) := by
    refine ⟨_, hseal, ?_⟩
    unfold keep save
    rw [hblob, hall]
  obtain ⟨blob, hread, hkeep⟩ := hkeep
  have hfile : ∀ a, readFile W true (Function.update st.files app (some blob)) a =
      if a = app then drawer else readFile W true st.files a := by
    intro a
    unfold readFile
    by_cases ha : a = app
    · rw [if_pos ha, ha, Function.update_self]
      simp only [if_true]
      exact hread
    · rw [if_neg ha, Function.update_of_ne ha]
  have hmem : app ∈ st.drawers.keys := (h.same app).mpr hl
  rw [hkeep]
  refine ⟨⟨fun a => ?_, fun a d hget => ?_, ?_, fun a => ?_⟩, rfl⟩
  · rw [← h.same a, Dict.mem_keys_set]
    constructor
    · rintro (rfl | hk)
      · exact hmem
      · exact hk
    · exact Or.inr
  · rw [Dict.get?_set] at hget
    rw [hfile]
    by_cases ha : a = app
    · rw [if_pos ha.symm] at hget
      rw [if_pos ha, Option.some.inj hget]
    · rw [if_neg fun heq => ha heq.symm] at hget
      rw [if_neg ha]
      exact h.held a d hget
  · rw [Dict.size_set_of_mem hmem]
    exact h.count
  · show total (readFile W true (Function.update st.files app (some blob)) a) ≤ maxDrawerBytes
    rw [hfile]
    split_ifs
    · exact hwithin.bytes
    · exact h.honest a

/-! ### The calls -/

theorem within_set (h : Within drawer) {key : Text} {value : Bytes}
    (hkey : validKey key = true) (hvalue : value.length ≤ maxValue) (hfits : Fits drawer key value) :
    Within (drawer.set key value) :=
  ⟨shaped_set h.toShaped hkey hvalue hfits.1, by rw [total_set]; exact hfits.2⟩

theorem within_pop (h : Within drawer) (key : Text) : Within (drawer.pop key) :=
  ⟨shaped_pop h.toShaped key, Nat.le_trans (total_pop drawer key) h.bytes⟩

/-- **What a `put` does**: it stores the value in memory and in the file, or changes nothing. -/
theorem put_spec (hW : Ideal W) (h : Inv W st) {env : Env} {key : Text}
    {value : Bytes} (hsafe : Safe W st (.put env app key value)) :
    Inv W (put W env st app key value).1 ∧ ((put W env st app key value).2 = .answered true ∨
      (put W env st app key value).2 = .answered false ∧
        (put W env st app key value).1.files = st.files) := by
  by_cases hvalid : validId app = true ∧ validKey key = true
  · by_cases hvalue : value.length ≤ maxValue
    · by_cases hroom : app ∈ st.loaded ∨ st.drawers.size < maxDrawers
      · obtain ⟨hopens, hwrites⟩ := hsafe hvalid.1 hvalid.2 hvalue hroom
        obtain ⟨hinv, hdrawer, hfiles⟩ := load_spec h hopens
        rw [drawerOf_eq h, ← hdrawer] at hwrites
        by_cases hfits : Fits (load W env.reads st app).2 key value
        · have hwithin : Within (load W env.reads st app).2 := by
            rw [hdrawer]
            exact within_readFile h.honest app
          have hset := within_set hwithin hvalid.2 hvalue hfits
          obtain ⟨hkeep, hdone⟩ := keep_spec hW hinv (mem_loaded W env.reads st app) hset (hwrites hfits)
          rw [put_eq W hvalid hvalue hroom hfits]
          exact ⟨hkeep, Or.inl hdone⟩
        · rw [put_full W hvalid hvalue hroom hfits]
          exact ⟨hinv, Or.inr ⟨rfl, hfiles⟩⟩
      · have hnew : app ∉ st.drawers.keys := fun hmem => hroom (Or.inl ((h.same app).mp hmem))
        unfold put
        rw [if_neg (not_not.mpr hvalid), if_neg (by omega),
          if_pos ⟨fun hl => hroom (Or.inl hl), hnew, by omega⟩]
        exact ⟨h, Or.inr ⟨rfl, rfl⟩⟩
    · unfold put
      rw [if_neg (not_not.mpr hvalid), if_pos (by omega)]
      exact ⟨h, Or.inr ⟨rfl, rfl⟩⟩
  · unfold put
    rw [if_pos hvalid]
    exact ⟨h, Or.inr ⟨rfl, rfl⟩⟩

theorem inv_delete (hW : Ideal W) (h : Inv W st) {env : Env} {key : Text}
    (hsafe : Safe W st (.delete env app key)) : Inv W (delete W env st app key).1 := by
  unfold delete
  by_cases hvalid : validId app = true ∧ validKey key = true
  · obtain ⟨hopens, hwrites⟩ := hsafe hvalid.1 hvalid.2
    obtain ⟨hinv, hdrawer, -⟩ := load_spec h hopens
    rw [drawerOf_eq h, ← hdrawer] at hwrites
    rw [if_neg (not_not.mpr hvalid)]
    simp only
    by_cases hk : key ∈ (load W env.reads st app).2.keys
    · rw [if_neg (not_not.mpr hk)]
      have hwithin : Within (load W env.reads st app).2 := by
        rw [hdrawer]
        exact within_readFile h.honest app
      exact (keep_spec hW hinv (mem_loaded W env.reads st app) (within_pop hwithin key) (hwrites hk)).1
    · rw [if_pos hk]
      exact hinv
  · rw [if_pos hvalid]
    exact h

theorem inv_step (hW : Ideal W) (h : Inv W st) {call : Call} (hsafe : Safe W st call) :
    Inv W (step W st call) := by
  cases call with
  | get reads app key =>
    show Inv W (get W reads st app key).1
    unfold Drawers.get
    split_ifs with hvalid
    · exact (load_spec h (hsafe hvalid.1 hvalid.2)).1
    · exact h
  | put env app key value => exact (put_spec hW h hsafe).1
  | delete env app key => exact inv_delete hW h hsafe
  | listKeys reads app =>
    show Inv W (listKeys W reads st app).1
    unfold listKeys
    split_ifs with hvalid
    · exact (load_spec h (hsafe hvalid)).1
    · exact h
  | restart => exact inv_fresh h.honest

theorem load_drawer (h : Inv W st) (app : AppId) : (load W true st app).2 = readFile W true st.files app := by
  by_cases hl : app ∈ st.loaded
  · exact (load_spec h (Or.inl hl)).2.1
  · unfold load
    rw [if_neg hl]

variable (W)

/-- **What an app stored is there after a restart**, the bounds hold, and a refused `put` changes nothing. -/
structure Durable (st : AppStorage) : Prop where
  get : ∀ app key, (get W true (fresh st.files) app key).2 = (get W true st app key).2
  listKeys : ∀ app, (listKeys W true (fresh st.files) app).2 = (listKeys W true st app).2
  count : st.drawers.size ≤ maxDrawers
  within : ∀ app drawer, st.drawers.get? app = some drawer → Within drawer
  refused : ∀ env app key value, Safe W st (.put env app key value) →
    (put W env st app key value).2 ≠ .answered true → (put W env st app key value).1.files = st.files ∧
      ∀ a, drawerOf W (put W env st app key value).1 a = drawerOf W st a

variable {W}

theorem durable_of_inv (hW : Ideal W) (h : Inv W st) : Durable W st := by
  have hload : ∀ app, (load W true (fresh st.files) app).2 = (load W true st app).2 := fun app => by
    rw [load_drawer h, load_drawer (inv_fresh h.honest)]
    rfl
  refine ⟨fun app key => ?_, fun app => ?_, h.count, fun app drawer hget => ?_, ?_⟩
  · unfold Drawers.get
    split_ifs
    · show (load W true (fresh st.files) app).2.get? key = _
      rw [hload]
    · rfl
  · unfold Drawers.listKeys
    split_ifs
    · show (load W true (fresh st.files) app).2.keys.mergeSort _ = _
      rw [hload]
    · rfl
  · rw [h.held app drawer hget]
    exact within_readFile h.honest app
  · intro env app key value hsafe hno
    obtain ⟨hinv, hdone | ⟨-, hfiles⟩⟩ := put_spec hW h hsafe
    · exact absurd hdone hno
    · refine ⟨hfiles, fun a => ?_⟩
      rw [drawerOf_eq hinv, drawerOf_eq h, hfiles]

/-- **After every run that meets the condition, what was stored is there after a restart.** -/
theorem durable (hW : Ideal W) {files : AppId → Option Bytes} (hfiles : Honest W files) {calls : List Call}
    (h : Guarded (step W) (Safe W) (fresh files) calls) :
    Durable W (run (step W) (fresh files) calls) ∧
      Honest W (run (step W) (fresh files) calls).files := by
  have hinv := Guarded.run_induct (P := Inv W) (fun st call hst hsafe => inv_step hW hst hsafe)
    (inv_fresh hfiles) h
  exact ⟨durable_of_inv hW hinv, hinv.honest⟩

/-! ### A run that loses a drawer -/

section Lost

def plainWorld : World where
  deriveSecret _ _ := []
  encrypt _ _ text _ := text ++ List.replicate tagLen 0
  decrypt _ _ data _ := some (data.take (data.length - tagLen))
  floatRepr := id
  depth := 1

theorem ideal_plainWorld : Ideal plainWorld := by
  refine ⟨fun key nonce text aad => ?_, fun key nonce text aad => ?_, Nat.le_refl 1⟩
  · show some ((text ++ List.replicate tagLen 0).take ((text ++ List.replicate tagLen 0).length - tagLen)) = _
    rw [List.length_append, List.length_replicate, Nat.add_sub_cancel, List.take_left]
  · show (text ++ List.replicate tagLen 0).length = _
    rw [List.length_append, List.length_replicate]

def fine : Env := ⟨true, ⟨List.replicate nonceLen 0, by decide⟩, .all⟩

def someApp : AppId := List.replicate appIdLen 7

theorem honest_none : Honest W fun _ => none := fun _ => Nat.zero_le _

theorem durable_restart : Durable plainWorld (run (step plainWorld) (fresh fun _ => none)
    [.put fine someApp [0x6B] [1, 2], .restart, .get true someApp [0x6B]]) := by
  have hset : Writable (Dict.set .empty [0x6B] [1, 2]) := by
    refine ⟨fun k hk => ?_, by decide⟩
    rw [List.mem_singleton.mp hk]
    exact ⟨by unfold Points; decide, rfl⟩
  refine (durable ideal_plainWorld honest_none ?_).1
  exact ⟨fun _ _ _ _ => ⟨Or.inr ⟨rfl, by decide⟩, fun _ => ⟨hset, rfl⟩⟩, trivial,
    fun _ _ => Or.inr ⟨rfl, by decide⟩, trivial⟩

def nameOf (i : ℕ) : Text := (0x10000 + i) :: List.replicate 255 0x10000

theorem nameOf_inj {i j : ℕ} (h : nameOf i = nameOf j) : i = j := by
  have := (List.cons.inj h).1
  omega

theorem valid_nameOf {i : ℕ} : validKey (nameOf i) = true := by
  unfold validKey nameOf
  rw [List.length_cons, List.length_replicate]
  rfl

theorem length_nameOf {i : ℕ} : ((nameOf i).flatMap JsonText.escape).length = 3072 := by
  have hone : ∀ c, 0x10000 ≤ c → (JsonText.escape c).length = 12 := by
    intro c hc
    unfold JsonText.escape
    rw [if_neg (by omega), if_neg (by omega), if_neg (by omega), if_neg (by omega), if_neg (by omega),
      if_neg (by omega), if_neg (by omega), if_neg (by omega)]
    rfl
  have hrest : ∀ n, ((List.replicate n 0x10000).flatMap JsonText.escape).length = n * 12 := by
    intro n
    induction n with
    | zero => rfl
    | succ n ih =>
      rw [List.replicate_succ, List.flatMap_cons, List.length_append, ih, hone _ (Nat.le_refl _)]
      omega
  rw [nameOf, List.flatMap_cons, List.length_append, hone _ (by omega), hrest]

def filled (n : ℕ) : Drawer where
  entries := (List.range n).map fun i => (nameOf i, [])
  nodup := by
    rw [List.map_map]
    exact List.nodup_range.map fun i j h => nameOf_inj h

theorem keys_filled {n : ℕ} {k : Text} : k ∈ (filled n).keys ↔ ∃ i < n, nameOf i = k := by
  simp [filled, Dict.keys]

theorem set_filled (n : ℕ) : (filled n).set (nameOf n) [] = filled (n + 1) := by
  have hnew : nameOf n ∉ (filled n).keys := by
    intro hmem
    obtain ⟨i, hi, heq⟩ := keys_filled.mp hmem
    have := nameOf_inj heq
    omega
  refine Dict.ext ?_
  rw [Dict.entries_set_of_notMem hnew]
  simp [filled, List.range_succ]

theorem total_filled (n : ℕ) : total (filled n) = 0 := by
  have hzero : ∀ l : List ℕ, bytes (l.map fun i => (nameOf i, [])) = 0 := by
    intro l
    induction l with
    | nil => rfl
    | cons i l ih =>
      simp only [bytes, List.map_cons, List.sum_cons, List.length_nil, Nat.zero_add] at ih ⊢
      exact ih
  rw [total_eq]
  exact hzero (List.range n)

theorem size_filled (n : ℕ) : (filled n).size = n := by
  simp [filled, Dict.size]

/-- The `put` of one more key. -/
def filling (i : ℕ) : Call := .put fine someApp (nameOf i) []

/-- After so many of them the drawer is in memory and in its file. -/
structure Filled (n : ℕ) (st : AppStorage) : Prop where
  drawer : (load plainWorld true st someApp).2 = filled n
  room : someApp ∈ st.loaded ∨ st.drawers.size < maxDrawers
  file : 0 < n → st.files someApp = blobOf plainWorld fine.nonce someApp (filled n)

theorem points_filled {n : ℕ} (hn : n ≤ maxKeys) : ∀ k ∈ (filled n).keys, Points k := by
  intro k hk c hc
  obtain ⟨i, hi, rfl⟩ := keys_filled.mp hk
  have hmax : n ≤ 4096 := hn
  rcases List.mem_cons.mp hc with rfl | hc
  · omega
  · rw [(List.mem_replicate.mp hc).2]
    decide

theorem filled_step {n : ℕ} (hn : n < maxKeys) {st : AppStorage} (h : Filled n st) :
    Filled (n + 1) (step plainWorld st (filling n)) := by
  have hbytes : newBytes (filled n) (nameOf n) [] ≤ maxDrawerBytes := by
    rw [← total_set, set_filled, total_filled]
    exact Nat.zero_le _
  have hfits : Fits (load plainWorld fine.reads st someApp).2 (nameOf n) [] := by
    rw [show (load plainWorld fine.reads st someApp).2 = _ from h.drawer]
    exact ⟨Or.inr (by rw [size_filled]; exact hn), hbytes⟩
  have hput := put_eq plainWorld ⟨by decide, valid_nameOf⟩ (Nat.zero_le _) h.room hfits
  rw [show (load plainWorld fine.reads st someApp).2 = _ from h.drawer, set_filled] at hput
  have hblob := blobOf_eq (W := plainWorld) (points_filled (Nat.succ_le_of_lt hn)) fine.nonce someApp
  have hloaded := mem_loaded plainWorld fine.reads st someApp
  generalize (load plainWorld fine.reads st someApp).1 = opened at hput hloaded
  have hkeep : ∃ blob, blobOf plainWorld fine.nonce someApp (filled (n + 1)) = some blob ∧
      (keep plainWorld fine opened someApp (filled (n + 1))).1 =
        { opened with drawers := opened.drawers.set someApp (filled (n + 1)),
                      files := Function.update opened.files someApp (some blob) } := by
    refine ⟨_, hblob, ?_⟩
    unfold keep save
    rw [hblob]
    rfl
  obtain ⟨blob, hblob, hkeep⟩ := hkeep
  have hstep : step plainWorld st (filling n) = _ := (congrArg Prod.fst hput).trans hkeep
  rw [hstep]
  refine ⟨?_, Or.inl hloaded, fun _ => ?_⟩
  · unfold load
    rw [if_pos hloaded, Dict.get?_set_self]
  · show Function.update opened.files someApp (some blob) someApp = _
    rw [hblob, Function.update_self]

theorem filled_run : ∀ {n : ℕ}, n ≤ maxKeys →
    Filled n (run (step plainWorld) (fresh fun _ => none) ((List.range n).map filling))
  | 0, _ => ⟨rfl, Or.inr (by decide), fun h => absurd h (Nat.lt_irrefl 0)⟩
  | n + 1, hn => by
    rw [List.range_succ, List.map_append, List.map_singleton, run_concat]
    exact filled_step hn (filled_run (Nat.le_of_succ_le hn))

theorem length_keys {m : ℕ} : ∀ {members : List (Text × Json)},
    (∀ e ∈ members, m ≤ (e.1.flatMap JsonText.escape).length) →
    members.length * m ≤ (writeMembers standard members).length
  | [], _ => by
    rw [List.length_nil, Nat.zero_mul]
    exact Nat.zero_le _
  | e :: members, h => by
    have hfirst := h e List.mem_cons_self
    have hrest := length_keys fun x hx => h x (List.mem_cons_of_mem e hx)
    have hkey : (writeString standard e.1).length = (e.1.flatMap JsonText.escape).length + 2 := by
      rw [writeString, List.length_cons, List.length_append]
      rfl
    rw [List.length_cons, Nat.succ_mul]
    simp only [writeMembers, List.length_cons, List.length_append, hkey]
    omega

theorem length_object (members : List (Text × Json)) :
    (writeMembers standard members).length ≤ (write standard (.obj members)).length + 1 := by
  cases members with
  | nil => exact Nat.le_add_left _ _
  | cons e members =>
    simp only [writeMembers, write, List.length_cons, List.length_append, blanks, List.length_replicate,
      standard]
    omega

theorem length_filled (n : ℕ) : n * 3072 + 27 ≤ fileLength (filled n) := by
  have hmembers : ((filled n).entries.map member).length = n := by
    rw [List.length_map]
    exact size_filled n
  have hkeys := @length_keys 3072 ((filled n).entries.map member) fun e he => by
    obtain ⟨x, hx, rfl⟩ := List.mem_map.mp he
    obtain ⟨i, -, rfl⟩ := List.mem_map.mp hx
    exact Nat.le_of_eq length_nameOf.symm
  have hwrite := length_object ((filled n).entries.map member)
  have hlength : fileLength (filled n) =
      12 + (write standard (.obj ((filled n).entries.map member))).length + 16 := rfl
  rw [hmembers] at hkeys
  rw [hlength]
  generalize (write standard (.obj ((filled n).entries.map member))).length = written at hwrite ⊢
  have hsum := Nat.le_trans hkeys hwrite
  calc n * 3072 + 27 ≤ written + 1 + 27 := Nat.add_le_add_right hsum 27
    _ = 12 + written + 16 := by omega

theorem lost_filled {n : ℕ} (hpos : 0 < n) (hn : n ≤ maxKeys) (hlong : maxFile < fileLength (filled n))
    {st : AppStorage} (h : Filled n st) :
    (get plainWorld true st someApp (nameOf 0)).2 = some [] ∧
      (get plainWorld true (fresh st.files) someApp (nameOf 0)).2 = none := by
  have hvalid : validId someApp = true ∧ validKey (nameOf 0) = true := ⟨by decide, valid_nameOf⟩
  have hblob := blobOf_eq (W := plainWorld) (points_filled hn) fine.nonce someApp
  have hfile := h.file hpos
  have hlength := length_blobOf ideal_plainWorld (points_filled hn) hblob
  constructor
  · unfold Drawers.get
    rw [if_pos hvalid, h.drawer]
    exact Dict.get?_eq_some.mpr (List.mem_map.mpr ⟨0, List.mem_range.mpr hpos, rfl⟩)
  · have hread : readFile plainWorld true st.files someApp = .empty := by
      unfold readFile
      rw [hfile, hblob]
      simp only [if_true]
      unfold readBlob
      rw [if_pos (by rw [hlength]; exact hlong)]
    unfold Drawers.get
    rw [if_pos hvalid]
    show (readFile plainWorld true st.files someApp).get? (nameOf 0) = none
    rw [hread]
    rfl

/-- **An app that stores 4096 long keys has every one of them, and none after a restart.** -/
theorem lost_drawer :
    let st := run (step plainWorld) (fresh fun _ => none) ((List.range maxKeys).map filling)
    (get plainWorld true st someApp (nameOf 0)).2 = some [] ∧
      (get plainWorld true (fresh st.files) someApp (nameOf 0)).2 = none := by
  have hlong : maxFile < maxKeys * 3072 + 27 := by decide
  exact lost_filled (by decide) (Nat.le_refl _) (Nat.lt_of_lt_of_le hlong (length_filled _))
    (filled_run (Nat.le_refl _))

end Lost

end NMesh.Storage.Kept
