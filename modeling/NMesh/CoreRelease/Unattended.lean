import NMesh.Base.Runs
import NMesh.CoreRelease.Publishers
import NMesh.CoreRelease.Version

/-! # Unattended installs

A release installs itself when its key is pinned for code, its version is newer than the running one, no
other content is known for that version, its key does not contradict itself, and either the key is pinned
for automatic install or a quorum of endorsed keys signed the same content (`Standing`). Two passes ask all
this and then fetch the package; what they asked is not asked again when the package is there. So the
authority stands at the install if nothing takes it away during the fetch, and if the package held under
the release's id is the one signed (`Steady`). -/

namespace NMesh.CoreRelease.Unattended

open Base.BigEndian Base.Utf8 Base.Hex Base.Ordered Base.Runs
open NMesh.Cert.Identity NMesh.CoreRelease.Descriptor NMesh.CoreRelease.Catalog
open NMesh.CoreRelease.Publishers NMesh.CoreRelease.Version
open NMesh.Directory.PseudoDir (Primitives turning bytesOf)

/-! ### The packages held -/

def maxHeldPackages : ℕ := 4

/-- The packages on disk by their ids, the one written last at the end. -/
structure ReleaseStore where
  max : ℕ
  held : Dict Bytes Bytes

variable (J : Reader) (P : Primitives)

def ReleaseStore.put (s : ReleaseStore) (releaseId package : Bytes) (sha256 : Text) :
    Option ReleaseStore :=
  if package = [] ∨ maxPackageBytes < package.length then none
  else if toHex (P.sha256 package) ≠ sha256 then none
  else
    let kept := Dict.makeRoom s.max s.held.size s.held
    some { s with held := (kept.pop releaseId).set releaseId package }

def ReleaseStore.get (s : ReleaseStore) (releaseId : Bytes) : Option Bytes :=
  (s.held.get? releaseId).filter fun package =>
    decide (package.length ≤ maxPackageBytes ∧ P.digest package = releaseId)

/-! ### The gates -/

/-- What the node takes as given: the version it runs, the tables of `str`, and the archive reader. -/
structure Host where
  running : Text
  chars : Characters
  openPackage : Bytes → Option Files

structure Node where
  publishers : TrustedPublishers
  releases : ReleaseBook
  quorum : ℕ
  /-- Who vouched for a node, as the certificates have it. -/
  ancestors : NodeID → List NodeID
  packages : ReleaseStore
  /-- The release that is being fetched to be installed unattended. -/
  pending : Option CatalogueEntry

variable (H : Host)

/-- What a node can do with a release. -/
inductive ReleaseState
  | running
  | untrusted
  | older
  | available
  deriving DecidableEq

/-- Why a release may not be installed unattended. -/
inductive Refusal
  | equivocated
  | contradicted
  | noneAuto
  | tooFew (endorsed quorum : ℕ)
  | oneFamily (count endorsed : ℕ)
  deriving DecidableEq

/-- Why it may. -/
inductive Leave
  | auto
  | endorsed (count : ℕ)
  deriving DecidableEq

namespace Node

def releaseState (n : Node) (entry : CatalogueEntry) : ReleaseState :=
  if entry.version = H.running then .running
  else if !n.publishers.mayInstallCode P entry.publisher then .untrusted
  else if !isNewer H.chars entry.version H.running then .older
  else .available

/-- How many of the signers trace back to one issuer, if these are more than half of them. -/
def publisherFamily (n : Node) (publisherIds : List NodeID) : Option ℕ :=
  let voices := publisherIds.flatMap n.ancestors
  let count := (voices.map fun issuer => voices.count issuer).foldl max 0
  if publisherIds.length < 2 ∨ count < 2 ∨ 2 * count ≤ publisherIds.length then none else some count

/-- The endorsed keys that signed the content of a release. -/
def endorsedSigners (n : Node) (entry : CatalogueEntry) : List NodeID :=
  n.publishers.endorsedAmong P (attesters n.releases entry.version entry.sha256)

/-- May this release replace the program with nobody watching? -/
def mayAutoInstall (n : Node) (entry : CatalogueEntry) : Except Refusal Leave :=
  if (equivocated P n.releases entry.publisher).isSome then .error .equivocated
  else if contradicts n.releases entry.version entry.sha256 then .error .contradicted
  else if n.publishers.autoFor P entry.publisher then .ok .auto
  else if n.quorum = 0 then .error .noneAuto
  else
    let endorsed := n.endorsedSigners P entry
    if endorsed.length < n.quorum then .error (.tooFew endorsed.length n.quorum)
    else
      match n.publisherFamily endorsed with
      | some count => .error (.oneFamily count endorsed.length)
      | none => .ok (.endorsed endorsed.length)

def newestFirst (left right : CatalogueEntry) : Bool :=
  if isNewer H.chars left.version right.version then true
  else if isNewer H.chars right.version left.version then false
  else right.ts ≤ left.ts

/-- The releases that may be installed unattended, newest first. -/
def candidates (n : Node) : List CatalogueEntry :=
  ((listed n.releases).filter fun entry => decide (n.releaseState P H entry = .available) &&
    (n.mayAutoInstall P entry).isOk).mergeSort (newestFirst H)

/-- What is handed to the updater: a release, and the files of a tree. -/
abbrev Handed := CatalogueEntry × Files

def openChecked (entry : CatalogueEntry) (package : Bytes) : Option Handed :=
  (H.openPackage package).bind fun files =>
    if checkTree H.chars files entry.version then some (entry, files) else none

/-- Install a release: at once if its package is held, else once it is fetched. -/
def installRelease (n : Node) (entry : CatalogueEntry) : Node × Option Handed :=
  if n.releaseState P H entry ≠ .available then (n, none)
  else
    match n.packages.get P entry.releaseId with
    | some package => (n, openChecked H entry package)
    | none => ({ n with pending := some entry }, none)

end Node

/-! ### The node at work -/

/-- What happens at a node between two awaits. `ready` says of a release's id that it is past its back-off
and not given up on. -/
inductive Act
  | trustPublisher (publicKey : Bytes) (name : Text) (auto endorsed code : Bool) (now : ℤ)
  | untrustPublisher (publisherId : NodeID)
  | setPublisherAuto (publisherId : NodeID) (auto : Bool)
  | setPublisherEndorsed (publisherId : NodeID) (endorsed : Bool)
  | setQuorum (quorum : ℤ)
  | announce (releaseBytes : Bytes)
  | certificates (ancestors : NodeID → List NodeID)
  | hold (releaseId package : Bytes) (sha256 : Text)
  | releasePass (ready : Bytes → Bool)
  | subscribedPass (releaseBytes : Bytes) (ready : Bytes → Bool)
  | fetched (package : Bytes)
  | failed

namespace Node

def retrust (n : Node) : Node :=
  { n with releases := n.releases.retrust (n.publishers.mayInstallCode P) }

def offered (n : Node) (releaseBytes : Bytes) : Node :=
  { n with releases := (n.releases.offer J P releaseBytes (n.publishers.mayInstallCode P)).2 }

/-- The release a pass goes on to install, and the node then. -/
def chosen (n : Node) : Act → Node × Option CatalogueEntry
  | .releasePass ready => (n, (n.candidates P H).find? fun entry => ready entry.releaseId)
  | .subscribedPass releaseBytes ready =>
    match parseRelease J P releaseBytes with
    | none => (n, none)
    | some doc =>
      let after := n.offered J P releaseBytes
      let entry := catalogueEntry P doc releaseBytes (n.publishers.mayInstallCode P doc.publisher)
      (after, if (after.mayAutoInstall P entry).isOk ∧ ready entry.releaseId then some entry else none)
  | _ => (n, none)

/-- One pass of the release loop, which waits for the fetch it began. -/
def pass (n : Node) (a : Act) : Node × Option Handed :=
  match n.pending with
  | some _ => (n, none)
  | none =>
    match n.chosen J P H a with
    | (after, some entry) => after.installRelease P H entry
    | (after, none) => (after, none)

def step (n : Node) : Act → Node × Option Handed
  | .trustPublisher publicKey name auto endorsed code now =>
    match n.publishers.add P publicKey name auto endorsed code now with
    | .error _ => (n, none)
    | .ok publishers => (retrust P { n with publishers := publishers }, none)
  | .untrustPublisher publisherId =>
    if (n.publishers.remove publisherId).1 then
      (retrust P { n with publishers := (n.publishers.remove publisherId).2 }, none)
    else (n, none)
  | .setPublisherAuto publisherId auto =>
    ({ n with publishers := (n.publishers.setAuto publisherId auto).2 }, none)
  | .setPublisherEndorsed publisherId endorsed =>
    ({ n with publishers := (n.publishers.setEndorse publisherId endorsed).2 }, none)
  | .setQuorum quorum => ({ n with quorum := quorum.toNat }, none)
  | .announce releaseBytes => (n.offered J P releaseBytes, none)
  | .certificates ancestors => ({ n with ancestors := ancestors }, none)
  | .hold releaseId package sha256 =>
    ({ n with packages := (n.packages.put P releaseId package sha256).getD n.packages }, none)
  | .fetched package =>
    match n.pending with
    | none => (n, none)
    | some entry =>
      if (package.length : ℤ) ≠ entry.size then (n, none)
      else
        match n.packages.put P entry.releaseId package entry.sha256 with
        | none => (n, none)
        | some packages =>
          ({ n with packages := packages, pending := none }, openChecked H entry package)
  | .failed => ({ n with pending := none }, none)
  | a => n.pass J P H a

def next (n : Node) (a : Act) : Node := (n.step J P H a).1

/-- A node as it starts: nothing announced, nothing being fetched. -/
def start (publishers : TrustedPublishers) (quorum : ℕ) (ancestors : NodeID → List NodeID)
    (packages : ReleaseStore) : Node :=
  ⟨publishers, .new 64, quorum, ancestors, packages, none⟩

end Node

/-! ### Standing authority -/

/-- **An operator's standing authority** to install a release unattended. -/
structure Standing (n : Node) (entry : CatalogueEntry) : Prop where
  pinned : n.publishers.mayInstallCode P entry.publisher = true
  newer : isNewer H.chars entry.version H.running = true
  undisputed : contradicts n.releases entry.version entry.sha256 = false
  consistent : equivocated P n.releases entry.publisher = none
  granted : n.publishers.autoFor P entry.publisher = true ∨
    0 < n.quorum ∧ n.quorum ≤ (n.endorsedSigners P entry).length

/-- The files handed over are those of the package with the signed hash. -/
def Signed (handed : Node.Handed) : Prop :=
  ∃ package, fromHex handed.1.sha256 = some (P.sha256 package) ∧ H.openPackage package = some handed.2

/-- **Nothing is taken away during a fetch**, and what is held under the id of a release that is about to be
installed is the package signed. -/
structure Steady (n : Node) (a : Act) : Prop where
  stands : ∀ entry, n.pending = some entry → Standing P H n entry →
    Standing P H (n.next J P H a) entry
  matched : n.pending = none → ∀ entry, (n.chosen J P H a).2 = some entry → ∀ package,
    n.packages.get P entry.releaseId = some package → fromHex entry.sha256 = some (P.sha256 package)

variable {J P H} {n : Node} {entry : CatalogueEntry}

theorem standing_of_gates (hstate : n.releaseState P H entry = .available)
    (hmay : (n.mayAutoInstall P entry).isOk = true) : Standing P H n entry := by
  unfold Node.releaseState at hstate
  split_ifs at hstate with h1 h2 h3
  simp only [Bool.not_eq_true', Bool.not_eq_false] at h2 h3
  unfold Node.mayAutoInstall at hmay
  dsimp only at hmay
  split_ifs at hmay with he hc ha hq hfew
  · cases hmay
  · cases hmay
  · exact ⟨h2, h3, by simpa using hc, by simpa using he, Or.inl ha⟩
  · cases hmay
  · cases hmay
  · exact ⟨h2, h3, by simpa using hc, by simpa using he,
      Or.inr ⟨Nat.pos_of_ne_zero hq, not_lt.mp hfew⟩⟩

theorem Standing.congr (h : Standing P H n entry) {n' : Node} (hpins : n'.publishers = n.publishers)
    (hbook : n'.releases = n.releases) (hquorum : n'.quorum = n.quorum) : Standing P H n' entry := by
  refine ⟨?_, h.newer, ?_, ?_, ?_⟩
  · rw [hpins]
    exact h.pinned
  · rw [hbook]
    exact h.undisputed
  · rw [hbook]
    exact h.consistent
  · unfold Node.endorsedSigners
    rw [hpins, hbook, hquorum]
    exact h.granted

theorem openChecked_eq_some {package : Bytes} {handed : Node.Handed}
    (h : Node.openChecked H entry package = some handed) :
    handed.1 = entry ∧ H.openPackage package = some handed.2 := by
  obtain ⟨files, hopen, hchecked⟩ := Option.bind_eq_some_iff.mp h
  split_ifs at hchecked
  cases hchecked
  exact ⟨rfl, hopen⟩

theorem hash_of_put {s s' : ReleaseStore} {releaseId package : Bytes} {sha256 : Text}
    (h : s.put P releaseId package sha256 = some s') :
    fromHex sha256 = some (P.sha256 package) := by
  unfold ReleaseStore.put at h
  split_ifs at h with h1 h2
  rw [← not_not.mp h2]
  exact fromHex_toHex _

theorem chosen_keeps (n : Node) (a : Act) :
    (n.chosen J P H a).1.pending = n.pending ∧ (n.chosen J P H a).1.packages = n.packages := by
  cases a with
  | subscribedPass releaseBytes ready =>
    simp only [Node.chosen]
    cases parseRelease J P releaseBytes <;> exact ⟨rfl, rfl⟩
  | _ => exact ⟨rfl, rfl⟩

theorem isOk_of_chosen {a : Act} {after : Node} (h : n.chosen J P H a = (after, some entry)) :
    (after.mayAutoInstall P entry).isOk = true := by
  cases a with
  | releasePass ready =>
    obtain ⟨rfl, hfind⟩ := Prod.mk.inj h
    have hmem := List.mem_mergeSort.mp (List.mem_of_find?_eq_some hfind)
    exact (Bool.and_eq_true_iff.mp (List.mem_filter.mp hmem).2).2
  | subscribedPass releaseBytes ready =>
    simp only [Node.chosen] at h
    cases hparse : parseRelease J P releaseBytes with
    | none =>
      rw [hparse] at h
      cases (Prod.mk.inj h).2
    | some doc =>
      rw [hparse] at h
      obtain ⟨rfl, hentry⟩ := Prod.mk.inj h
      split_ifs at hentry with hok
      cases hentry
      exact hok.1
  | _ => cases (Prod.mk.inj h).2

def Waits (P : Primitives) (H : Host) (n : Node) : Prop :=
  ∀ entry, n.pending = some entry → Standing P H n entry

/-- A node whose fetches have standing authority, and what it hands over has it too. -/
def Good (P : Primitives) (H : Host) (result : Node × Option Node.Handed) : Prop :=
  Waits P H result.1 ∧
    ∀ handed, result.2 = some handed → Standing P H result.1 handed.1 ∧ Signed P H handed

theorem good_install (hidle : n.pending = none) (hmay : (n.mayAutoInstall P entry).isOk = true)
    (hmatched : ∀ package, n.packages.get P entry.releaseId = some package →
      fromHex entry.sha256 = some (P.sha256 package)) : Good P H (n.installRelease P H entry) := by
  have hnone : Waits P H n := fun e he => by
    rw [hidle] at he
    cases he
  unfold Node.installRelease
  by_cases hstate : n.releaseState P H entry = .available
  · have hstands := standing_of_gates hstate hmay
    rw [if_neg (not_not.mpr hstate)]
    cases hget : n.packages.get P entry.releaseId with
    | none =>
      refine ⟨fun e he => ?_, fun handed hhanded => by cases hhanded⟩
      cases he
      exact hstands.congr rfl rfl rfl
    | some package =>
      refine ⟨hnone, fun handed hhanded => ?_⟩
      obtain ⟨hentry, hopen⟩ := openChecked_eq_some hhanded
      rw [hentry]
      exact ⟨hstands, package, hentry ▸ hmatched package hget, hopen⟩
  · rw [if_pos hstate]
    exact ⟨hnone, fun handed hhanded => by cases hhanded⟩

/-- **One pass.** -/
theorem good_pass (h : Waits P H n) {a : Act} (hsteady : Steady J P H n a) :
    Good P H (n.pass J P H a) := by
  unfold Node.pass
  cases hpending : n.pending with
  | some entry => exact ⟨h, fun handed hhanded => by cases hhanded⟩
  | none =>
    obtain ⟨hidle, hpackages⟩ := chosen_keeps (J := J) (P := P) (H := H) n a
    rw [hpending] at hidle
    cases hchosen : n.chosen J P H a with
    | mk after chosen =>
      rw [hchosen] at hidle hpackages
      cases chosen with
      | none =>
        refine ⟨fun e he => ?_, fun handed hhanded => by cases hhanded⟩
        rw [hidle] at he
        cases he
      | some entry =>
        refine good_install hidle (isOk_of_chosen hchosen) ?_
        rw [hpackages]
        exact hsteady.matched hpending entry (by rw [hchosen])

theorem good_quiet (h : Waits P H n) {a : Act} (hsteady : Steady J P H n a)
    (hquiet : (n.step J P H a).2 = none) (hkeeps : (n.next J P H a).pending = n.pending) :
    Good P H (n.step J P H a) := by
  refine ⟨fun entry he => ?_, fun handed hhanded => ?_⟩
  · have hpending : n.pending = some entry := hkeeps.symm.trans he
    exact hsteady.stands entry hpending (h entry hpending)
  · rw [hquiet] at hhanded
    cases hhanded

/-- **One act.** -/
theorem good_step (h : Waits P H n) (a : Act) (hsteady : Steady J P H n a) :
    Good P H (n.step J P H a) := by
  cases a with
  | trustPublisher publicKey name auto endorsed code now =>
    refine good_quiet h hsteady ?_ ?_
    · simp only [Node.step]
      cases n.publishers.add P publicKey name auto endorsed code now <;> rfl
    · simp only [Node.next, Node.step]
      cases n.publishers.add P publicKey name auto endorsed code now <;> rfl
  | untrustPublisher publisherId =>
    refine good_quiet h hsteady ?_ ?_
    · simp only [Node.step]
      split_ifs <;> rfl
    · simp only [Node.next, Node.step]
      split_ifs <;> rfl
  | releasePass ready | subscribedPass releaseBytes ready => exact good_pass h hsteady
  | fetched package =>
    simp only [Node.step]
    cases hpending : n.pending with
    | none => exact ⟨h, fun handed hhanded => by cases hhanded⟩
    | some entry =>
      have hstands := h entry hpending
      dsimp only
      split_ifs with hsize
      · exact ⟨h, fun handed hhanded => by cases hhanded⟩
      · cases hput : n.packages.put P entry.releaseId package entry.sha256 with
        | none => exact ⟨h, fun handed hhanded => by cases hhanded⟩
        | some packages =>
          refine ⟨fun e he => (by cases he), fun handed hhanded => ?_⟩
          obtain ⟨hentry, hopen⟩ := openChecked_eq_some hhanded
          rw [hentry]
          exact ⟨hstands.congr rfl rfl rfl, package, hentry ▸ hash_of_put hput, hopen⟩
  | failed => exact ⟨fun e he => (by cases he), fun handed hhanded => by cases hhanded⟩
  | _ => exact good_quiet h hsteady rfl rfl

/-- **Nothing replaces the program unattended without standing authority**, in any run in which nothing
takes the authority of a release away while it is fetched, and no release is chosen under whose id another
package is held. -/
theorem installs_authorised (publishers : TrustedPublishers) (quorum : ℕ)
    (ancestors : NodeID → List NodeID) (packages : ReleaseStore) (acts : List Act)
    (hsteady : Guarded (Node.next J P H) (Steady J P H)
      (Node.start publishers quorum ancestors packages) acts) :
    ∀ pre a post, acts = pre ++ a :: post → ∀ n,
      n = run (Node.next J P H) (Node.start publishers quorum ancestors packages) pre →
      ∀ handed, (n.step J P H a).2 = some handed →
        Standing P H (n.next J P H a) handed.1 ∧ Signed P H handed := by
  rintro pre a post rfl n rfl handed hhanded
  obtain ⟨hpre, hstep, -⟩ := guarded_append.mp hsteady
  have hwaits : Waits P H (run (Node.next J P H) (Node.start publishers quorum ancestors packages) pre) :=
    Guarded.run_induct (P := Waits P H) (fun n a h hg => (good_step h a hg).1)
      (fun e he => by cases he) hpre
  exact (good_step hwaits a hstep).2 handed hhanded

/-! ### One release -/

def packageOf (mark : UInt8) : Bytes :=
  bytesOf "__version__=\"2\"\n#" ++ mark :: List.replicate 20 0x20

def releaseOf (mark : UInt8) : Release where
  v := .int 2
  version := ascii "2"
  size := (packageOf mark).length
  sha256 := toHex (turning.sha256 (packageOf mark))
  publisherHex := ascii "07"
  ts := 0
  notes := []
  publisher := [7]
  digest := turning.sha256 (packageOf mark)
  signature := [9]

/-- What `build_release` writes for it. -/
def writtenOf (mark : UInt8) : Bytes := (encodeRelease (releaseOf mark)).getD []

def plainHost : Host where
  running := ascii "1"
  chars := asciiOnly
  openPackage := fun package =>
    some ((Dict.empty.set (ascii "src/version.py") package).set (ascii "start.sh") [])

def bare : Node := .start .new 1 (fun _ => []) ⟨maxHeldPackages, Dict.empty⟩

/-- The key is pinned for automatic install, its release arrives, and a pass begins to fetch it. -/
def begun : List Act :=
  [.trustPublisher [7] [] true false true 1, .announce (writtenOf 0), .releasePass fun _ => true]

def withdrawn : List Act := begun ++ [.untrustPublisher (turning.fromPublicKey [7])]

def bareAfter (acts : List Act) : Node := run (Node.next plainReader turning plainHost) bare acts

/-- **The package of an unpinned key is installed**: the pins were read before it was fetched. -/
theorem withdrawn_installs : ∃ handed,
    ((bareAfter withdrawn).step plainReader turning plainHost (.fetched (packageOf 0))).2 = some handed ∧
      ¬ Standing turning plainHost
        ((bareAfter withdrawn).next plainReader turning plainHost (.fetched (packageOf 0))) handed.1 := by
  have hrun : (((bareAfter withdrawn).step plainReader turning plainHost (.fetched (packageOf 0))).2.map
      fun handed => ((bareAfter withdrawn).next plainReader turning plainHost
        (.fetched (packageOf 0))).publishers.mayInstallCode turning handed.1.publisher) = some false := by
    decide +kernel
  obtain ⟨handed, hhanded, hpin⟩ := Option.map_eq_some_iff.mp hrun
  refine ⟨handed, hhanded, fun h => ?_⟩
  rw [h.pinned] at hpin
  cases hpin

theorem Standing.fetched (h : Standing P H n entry) (package : Bytes) :
    Standing P H (n.next J P H (.fetched package)) entry := by
  simp only [Node.next, Node.step]
  cases n.pending with
  | none => exact h
  | some waiting =>
    dsimp only
    split_ifs
    · exact h
    · cases n.packages.put P waiting.releaseId package waiting.sha256 with
      | none => exact h
      | some packages => exact h.congr rfl rfl rfl

theorem steady_of_idle (hidle : n.pending = none) (hempty : n.packages.held = Dict.empty) (a : Act) :
    Steady J P H n a := by
  refine ⟨fun entry he => ?_, fun _ entry _ package hget => ?_⟩
  · rw [hidle] at he
    cases he
  · rw [ReleaseStore.get, hempty] at hget
    cases hget

theorem installs_authorised_begun : ∃ handed,
    ((bareAfter begun).step plainReader turning plainHost (.fetched (packageOf 0))).2 = some handed ∧
      Standing turning plainHost
          ((bareAfter begun).next plainReader turning plainHost (.fetched (packageOf 0))) handed.1 ∧
        Signed turning plainHost handed := by
  have hidle : (bareAfter (begun.take 2)).pending = none ∧
      (bareAfter (begun.take 2)).packages.held = Dict.empty := by
    have hrun : (bareAfter (begun.take 2)).pending.isNone = true ∧
        (bareAfter (begun.take 2)).packages.held = Dict.empty := by decide +kernel
    exact ⟨Option.isNone_iff_eq_none.mp hrun.1, hrun.2⟩
  have hinstalled : ((bareAfter begun).step plainReader turning plainHost
      (.fetched (packageOf 0))).2.isSome = true := by decide +kernel
  obtain ⟨handed, hhanded⟩ := Option.isSome_iff_exists.mp hinstalled
  have hsteady : Guarded (Node.next plainReader turning plainHost)
      (Steady plainReader turning plainHost) bare (begun ++ [.fetched (packageOf 0)]) :=
    ⟨steady_of_idle rfl rfl _, steady_of_idle rfl rfl _, steady_of_idle hidle.1 hidle.2 _,
      ⟨fun entry _ h => h.fetched _, fun _ _ hnone => by cases hnone⟩, trivial⟩
  exact ⟨handed, hhanded, installs_authorised .new 1 (fun _ => []) ⟨maxHeldPackages, Dict.empty⟩ _
    hsteady begun (.fetched (packageOf 0)) [] rfl _ rfl handed hhanded⟩

end NMesh.CoreRelease.Unattended
