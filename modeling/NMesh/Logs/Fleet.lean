import NMesh.Logs.Archive
import NMesh.Logs.Client

/-! # Following the log of a machine

An operator follows the log of a machine: it sends the number its archive has seen, the agent pushes what came
since (the backlog), and from then on what its pump takes from the connector. No line is passed without a word as
long as the ring tells of what it dropped and the pump pushes no line while one before it is still to be pushed
(`followed`). Where the pump pushes a line before the backlog is sent, what the backlog holds is never taken
(`passed_over`). -/

namespace NMesh.Logs.Fleet

open Base.Utf8 Base.Ordered Base.JsonText Base.JsonStyle Base.JsonRead
open Base.JsonSize Base.Runs NMesh.Logs.Book NMesh.Logs.Follower

/-- The Python of the machine and of its operator, the name of the machine, and the request that is followed. -/
structure World where
  rings : Book.World
  archive : Archive.World
  node : Text
  rid : Text

def maxBody : ℕ := 56000

def linesPerPush : ℕ := 64

def maxClientQueue : ℕ := 64

/-- `_CLIENT_LOG_INBOX` -/
def maxLogInbox : ℕ := 1024

/-- What the agent pushes: lines, and how many were lost after the number that was asked from. -/
structure Frame where
  after : ℕ
  lines : List Line
  lost : ℕ
  run : Text

/-- The backlog of a follow: it is still to be read, or to be sent. -/
inductive Job
  | look (seq : ℕ) (run : Text)
  | push (f : Frame)

/-! ### Sending -/

def fewer (keep : ℕ) : ℕ := if 4 < keep then keep * 3 / 4 else keep - 1

/-- Entries are dropped until the rest fits; each time there are fewer. -/
def shorten (document : List Line → Option ℕ → Json) (lines : List Line) : ℕ → ℕ → Option (List Line)
  | 0, _ => none
  | n + 1, keep =>
    if keep = 0 then none
    else if (blob compact (document (lines.take (fewer keep)) (some (lines.length - fewer keep)))).length ≤ maxBody
    then some (lines.take (fewer keep))
    else shorten document lines n (fewer keep)

/-- `_dump_json`, of a document with lines: those that are sent; `none` is "reply too large". -/
def dumpJson (document : List Line → Option ℕ → Json) (lines : List Line) : Option (List Line) :=
  if (blob compact (document lines none)).length ≤ maxBody then some lines
  else shorten document lines lines.length lines.length

def truncated : Option ℕ → List (Text × Json)
  | none => []
  | some n => [(ascii "truncated", .int n)]

section Steps

variable (W : World)

def isHex (c : ℕ) : Bool := 0x30 ≤ c ∧ c ≤ 0x39 ∨ 0x61 ≤ c ∧ c ≤ 0x66

def logRun (raw : Text) : Text :=
  let text := W.rings.lower (raw.take 32)
  if text ≠ [] ∧ text.all isHex then text else []

/-- The backlog, as `_push_backlog` sends it. -/
def backlogDocument (run : Text) (lost : ℕ) (lines : List Line) (cut : Option ℕ) : Json := .obj
  ([(ascii "rid", .str W.rid), (ascii "op", .str (ascii "push")), (ascii "ok", .bool true),
    (ascii "lines", .arr (lines.map Client.asLine)), (ascii "run", .str run), (ascii "lost", .int lost)] ++
    truncated cut)

/-- New lines, as `_push_to_followers` sends them. -/
def liveDocument (run : Text) (lines : List Line) (cut : Option ℕ) : Json := .obj
  ([(ascii "rid", .str W.rid), (ascii "op", .str (ascii "push")), (ascii "ok", .bool true),
    (ascii "run", .str run), (ascii "lines", .arr (lines.map Client.asLine))] ++ truncated cut)

/-! ### The agent and the operator -/

/-- The machine's ring and all it recorded; the lines on their way to the agent, in the queue to it and in its
inbox; its follower and the jobs of it; the operator's requests and the frames on their way; and what the operator
took in. -/
structure Follow where
  book : LogBook
  all : List Line
  watched : Bool
  outbox : List Line
  inbox : List Line
  following : Bool
  jobs : List Job
  requests : List (ℕ × Text)
  frames : List Frame
  absorbed : List Frame
  archive : Archive.State

def begin (book : LogBook) (all : List Line) (archive : Archive.State) : Follow :=
  ⟨book, all, false, [], [], false, [], [], [], [], archive⟩

inductive Event
  /-- Something happens to the ring; `room` is whether other frames leave room in the queue to the agent. -/
  | op (o : Op) (room : Bool)
  | deliver
  | renew
  | register (k : ℕ)
  | look (k : ℕ)
  | send (k : ℕ)
  | turn
  | expire
  | unwatch
  | absorb (now : ℕ) (time token : Text)

/-- The number the operator asks from, and the run of it. -/
def request (s : Follow) : ℕ × Text :=
  ((s.archive.archive.seenOf W.node).toNat, logRun W (s.archive.archive.runOf W.node))

/-- `_push_backlog`, reading: through the connector, without filters. -/
def backlog (b : LogBook) (seq : ℕ) (run : Text) : Frame :=
  let page := Client.sent (b.since seq run (some maxQuery) fun _ => true)
  ⟨b.startAt seq run, page.lines, page.lost, logRun W page.run⟩

/-- `_push_backlog`, sending. -/
def sendBacklog (f : Frame) : List Frame :=
  if f.lines = [] ∧ f.lost = 0 then []
  else ((dumpJson (backlogDocument W f.run f.lost) f.lines).map fun lines => { f with lines := lines }).toList

/-- `_push_to_followers`, of a follower at level debug. -/
def sendLive (run : Text) (batch : List Line) : List Frame :=
  if batch = [] then []
  else ((dumpJson (liveDocument W run) batch).map fun lines => (⟨0, lines, 0, run⟩ : Frame)).toList

/-- `_on_logs_reply`, and what the operator's console does with it. -/
def pageOf (f : Frame) (now : ℕ) (time token : Text) : Archive.Page where
  node := W.node
  lines := (f.lines.map Client.asLine).take maxQuery
  lost := f.lost
  run := logRun W f.run
  now := now
  time := time
  token := token

def step (s : Follow) : Event → Follow
  | .op o room =>
    { s with
      book := s.book.apply W.rings o
      all := s.all ++ recorded W.rings s.book o
      outbox := if s.watched ∧ room ∧ s.outbox.length < maxClientQueue then
        s.outbox ++ recorded W.rings s.book o else s.outbox }
  | .deliver =>
    match s.outbox with
    | [] => s
    | line :: rest =>
      let inbox := s.inbox ++ [line]
      { s with outbox := rest, inbox := inbox.drop (inbox.length - maxLogInbox) }
  | .renew => { s with requests := s.requests ++ [request W s] }
  | .register k =>
    match s.requests[k]? with
    | none => s
    | some (seq, run) =>
      { s with requests := s.requests.eraseIdx k, watched := true, following := true,
               jobs := s.jobs ++ [.look seq run] }
  | .look k =>
    match s.jobs[k]? with
    | some (.look seq run) => { s with jobs := s.jobs.set k (.push (backlog W s.book seq run)) }
    | _ => s
  | .send k =>
    match s.jobs[k]? with
    | some (.push f) => { s with jobs := s.jobs.eraseIdx k, frames := s.frames ++ sendBacklog W f }
    | _ => s
  | .turn =>
    { s with
      inbox := s.inbox.drop linesPerPush
      frames := s.frames ++
        if s.following then sendLive W (logRun W s.book.run) (s.inbox.take linesPerPush) else [] }
  | .expire => { s with following := false }
  | .unwatch => { s with watched := false }
  | .absorb now time token =>
    match s.frames with
    | [] => s
    | f :: rest =>
      { s with frames := rest, absorbed := s.absorbed ++ [f],
               archive := Archive.step W.archive s.archive (pageOf W f now time token) }

end Steps

/-! ### What was sent -/

def Frame.Announces (f : Frame) (line : Line) : Prop := f.after < line.seq ∧ line.seq ≤ f.after + f.lost

/-- The highest number that was sent, or where the follow started. -/
def topOf (start : ℕ) (frames : List Frame) : ℕ :=
  (frames.flatMap Frame.lines).foldl (fun t line => max t line.seq) start

def Follow.top (start : ℕ) (s : Follow) : ℕ := topOf start (s.absorbed ++ s.frames)

/-- **The condition on a push**: no line recorded after the last one sent is missing among the lines of it. -/
def Continues (start : ℕ) (s : Follow) : Prop :=
  ∀ x ∈ s.inbox.take linesPerPush, ∀ line ∈ s.all, s.top start < line.seq → line.seq ≤ x.seq →
    line ∈ s.inbox.take linesPerPush

/-- **The condition**: a backlog is read while the ring tells of what it dropped, and a push goes on where the last
frame ended. -/
def Safe (start : ℕ) (s : Follow) : Event → Prop
  | .look k => ∀ seq run, s.jobs[k]? = some (.look seq run) → Heard s.book (s.book.startAt seq run)
  | .turn => s.following = true → Continues start s
  | _ => True

/-- **No hole**: what the archive has seen the last of, of the current run, it holds or was told is lost. -/
def NoHole (W : World) (start : ℕ) (s : Follow) : Prop :=
  s.archive.archive.runOf W.node = s.book.run → ∀ line ∈ s.all, start < line.seq →
    (line.seq : ℤ) ≤ s.archive.archive.seenOf W.node →
    (s.book.run, (line.seq : ℤ)) ∈ s.archive.pairs W.node ∨ ∃ f ∈ s.absorbed, f.Announces line

/-! ### Frames -/

variable {lines : List Line}

theorem shorten_take {document : List Line → Option ℕ → Json} {rest : List Line} : ∀ {n keep : ℕ},
    shorten document lines n keep = some rest → ∃ k, rest = lines.take k
  | 0, _, h => by cases h
  | n + 1, keep, h => by
    rw [shorten] at h
    split_ifs at h
    · exact ⟨_, (Option.some.inj h).symm⟩
    · exact shorten_take h

theorem dumpJson_take {document : List Line → Option ℕ → Json} {rest : List Line}
    (h : dumpJson document lines = some rest) : ∃ k, rest = lines.take k := by
  unfold dumpJson at h
  split_ifs at h
  · exact ⟨lines.length, by rw [List.take_length, ← Option.some.inj h]⟩
  · exact shorten_take h

theorem foldl_max_le {m : ℕ} : ∀ {lines : List Line} {start : ℕ},
    lines.foldl (fun t line => max t line.seq) start ≤ m ↔ start ≤ m ∧ ∀ line ∈ lines, line.seq ≤ m
  | [], start => by simp
  | x :: lines, start => by
    rw [List.foldl_cons, foldl_max_le, List.forall_mem_cons, max_le_iff, and_assoc]

theorem topOf_le_iff {start m : ℕ} {frames : List Frame} :
    topOf start frames ≤ m ↔ start ≤ m ∧ ∀ f ∈ frames, ∀ line ∈ f.lines, line.seq ≤ m := by
  rw [topOf, foldl_max_le]
  refine and_congr_right fun _ => ⟨fun h f hf line hl => h line (List.mem_flatMap.mpr ⟨f, hf, hl⟩), fun h line hl => ?_⟩
  obtain ⟨f, hf, hl⟩ := List.mem_flatMap.mp hl
  exact h f hf line hl

theorem start_le_topOf (start : ℕ) (frames : List Frame) : start ≤ topOf start frames :=
  (topOf_le_iff.mp (Nat.le_refl _)).1

theorem topOf_append (start : ℕ) (fs gs : List Frame) : topOf start (fs ++ gs) = topOf (topOf start fs) gs := by
  unfold topOf
  rw [List.flatMap_append, List.foldl_append]

theorem topOf_le_append (start : ℕ) (fs gs : List Frame) : topOf start fs ≤ topOf start (fs ++ gs) := by
  rw [topOf_append]
  exact start_le_topOf _ _

/-- The lines up to a frame's last are in it, or said to be lost. -/
def Seam (all : List Line) (t : ℕ) (f : Frame) : Prop :=
  ∀ line ∈ all, t < line.seq → ∀ x ∈ f.lines, line.seq ≤ x.seq → line ∈ f.lines ∨ f.Announces line

variable {all : List Line}

variable {f : Frame}

theorem seam_mono {t t' : ℕ} (h : Seam all t f) (hle : t ≤ t') : Seam all t' f :=
  fun line hl ht x hx hle' => h line hl (Nat.lt_of_le_of_lt hle ht) x hx hle'

theorem mem_take_of_le (h : Upwards lines) {k : ℕ} {line x : Line} (hl : line ∈ lines)
    (hx : x ∈ lines.take k) (hle : line.seq ≤ x.seq) : line ∈ lines.take k := by
  rw [← List.take_append_drop k lines] at h hl
  rcases List.mem_append.mp hl with hl | hl
  · exact hl
  · have := (List.pairwise_append.mp h).2.2 x hx line hl
    omega

theorem seam_take {t : ℕ} (hup : Upwards f.lines) (h : Seam all t f) (k : ℕ) :
    Seam all t { f with lines := f.lines.take k } := by
  intro line hl ht x hx hle
  rcases h line hl ht x (List.mem_of_mem_take hx) hle with hin | hlost
  · exact Or.inl (mem_take_of_le hup hin hx hle)
  · exact Or.inr hlost

/-- A frame of lines that were recorded, in order. -/
structure FrameOk (all : List Line) (run : Text) (f : Frame) : Prop where
  run : f.run = run
  lines : ∀ line ∈ f.lines, line ∈ all
  up : Upwards f.lines
  few : f.lines.length ≤ maxQuery

theorem frameOk_take {run : Text} (h : FrameOk all run f) (k : ℕ) :
    FrameOk all run { f with lines := f.lines.take k } := by
  have hlen : (f.lines.take k).length ≤ f.lines.length := by
    rw [List.length_take]
    exact Nat.min_le_right _ _
  exact ⟨h.run, fun line hl => h.lines line (List.mem_of_mem_take hl), h.up.sublist (List.take_sublist _ _),
    hlen.trans h.few⟩

/-! ### Lines as the operator records them -/

def Flat : Json → Prop
  | .arr _ => False
  | .obj _ => False
  | _ => True

def FlatLine (line : Line) : Prop := ∀ e ∈ line.fields, Flat e.2

variable {P : Book.World}

theorem flat_cleanValue {v v' : Json} (h : cleanValue P v = some v') : Flat v' := by
  cases v with
  | null | bool _ | int _ =>
    rw [← Option.some.inj h]
    trivial
  | float repr =>
    rw [← Option.some.inj h]
    split_ifs <;> trivial
  | str s =>
    have h : some (Json.str (s.take maxFieldText)) = some v' := h
    rw [← Option.some.inj h]
    trivial
  | arr _ | obj _ =>
    obtain ⟨t, -, rfl⟩ := Option.map_eq_some_iff.mp h
    trivial

theorem flat_lineOf {seq : ℕ} {s : Said} {line : Line} (h : lineOf P seq s = some line) : FlatLine line := by
  unfold lineOf at h
  simp only [Option.bind_eq_bind, Option.bind_eq_some_iff, Option.some.injEq] at h
  obtain ⟨_, -, _, -, _, -, _, -, fields, hfields, rfl⟩ := h
  intro e he
  cases hraw : s.fields with
  | obj members =>
    rw [hraw] at hfields
    simp only [cleanFields, Option.bind_eq_bind, Option.bind_eq_some_iff] at hfields
    obtain ⟨pairs, hpairs, hfields⟩ := hfields
    rw [← Option.some.inj hfields] at he
    rcases Client.mem_foldl_setL he with he | he
    · obtain ⟨x, -, hxe⟩ := Client.mem_mapM hpairs he
      obtain ⟨v, hv, rfl⟩ := Option.map_eq_some_iff.mp hxe
      exact flat_cleanValue hv
    · cases he
  | null | bool _ | int _ | float _ | str _ | arr _ =>
    rw [hraw] at hfields
    rw [← Option.some.inj hfields] at he
    cases he

theorem isSome_cleanValue {v : Json} (h : Flat v) : (cleanValue P v).isSome = true := by
  cases v with
  | null | bool _ | int _ | float _ | str _ => rfl
  | arr _ | obj _ => exact h.elim

theorem isSome_mapM {α β : Type} {f : α → Option β} : ∀ {xs : List α}, (∀ x ∈ xs, (f x).isSome = true) →
    (xs.mapM f).isSome = true
  | [], _ => rfl
  | x :: xs, h => by
    obtain ⟨y, hy⟩ := Option.isSome_iff_exists.mp (h x List.mem_cons_self)
    obtain ⟨ys, hys⟩ := Option.isSome_iff_exists.mp (isSome_mapM fun z hz => h z (List.mem_cons_of_mem x hz))
    rw [List.mapM_cons, hy, hys]
    rfl

theorem flat_setL {k : Text} {v : Json} {members : List (Text × Json)} (hv : Flat v)
    (h : ∀ e ∈ members, Flat e.2) : ∀ e ∈ setL k v members, Flat e.2 := by
  intro e he
  rcases mem_setL he with rfl | he
  · exact hv
  · exact h e he

section Absorbing

variable {W : World}

/-- `int` of a whole number is the number. -/
def IntOf (A : Archive.World) : Prop := ∀ n, A.int (.int n) = n

theorem textOr_str (P : Book.World) (text : Text) : ∃ t, textOr P (.str text) = some t := by
  unfold textOr
  split_ifs
  · exact ⟨text, rfl⟩
  · exact ⟨[], rfl⟩

def membersOf (line : Line) : List (Text × Json) :=
  [(ascii "seq", .int line.seq), (ascii "at", .float line.time), (ascii "level", .str line.level),
    (ascii "source", .str line.source), (ascii "topic", .str line.topic), (ascii "message", .str line.message),
    (ascii "fields", .obj line.fields)]

variable {A : Archive.World}

theorem numberOf_asLine (hint : IntOf A) (line : Line) : Archive.numberOf A (membersOf line) = line.seq := by
  have hfield : Archive.field (membersOf line) "seq" = .int line.seq := rfl
  rw [Archive.numberOf, hfield, hint]

theorem lineNumber_asLine (hint : IntOf A) (line : Line) :
    Archive.lineNumber A (Client.asLine line) = line.seq := numberOf_asLine hint line

theorem numbered_asLine (hint : IntOf A) {line : Line} (hpos : 1 ≤ line.seq) :
    Archive.Numbered A (Client.asLine line) :=
  ⟨membersOf line, rfl, by rw [numberOf_asLine hint]; omega⟩

/-- **Every line that was recorded can be recorded by the operator.** -/
theorem cleanable_asLine {line : Line} (h : FlatLine line) (time : Text) :
    Archive.Cleanable A time (Client.asLine line) := by
  intro members hmembers seq
  obtain rfl : membersOf line = members := Json.obj.inj hmembers
  obtain ⟨level, hlevel⟩ := textOr_str A.rings line.level
  obtain ⟨source, hsource⟩ := textOr_str A.rings line.source
  obtain ⟨topic, htopic⟩ := textOr_str A.rings line.topic
  obtain ⟨message, hmessage⟩ := textOr_str A.rings line.message
  have hall : ∀ e ∈ setL (ascii "said_at") (.float line.time)
      (setL (ascii "seq") (.int (Archive.numberOf A (membersOf line))) line.fields), Flat e.2 :=
    flat_setL trivial (flat_setL trivial h)
  have hfields : (cleanFields A.rings (.obj (setL (ascii "said_at") (.float line.time)
      (setL (ascii "seq") (.int (Archive.numberOf A (membersOf line))) line.fields)))).isSome = true := by
    have hsome : (((setL (ascii "said_at") (.float line.time)
        (setL (ascii "seq") (.int (Archive.numberOf A (membersOf line))) line.fields)).take maxFields).mapM
          fun e : Text × Json => (cleanValue A.rings e.2).map (e.1.take maxFieldKey, ·)).isSome = true :=
      isSome_mapM fun e he => by
        rw [Option.isSome_map]
        exact isSome_cleanValue (hall e (List.mem_of_mem_take he))
    obtain ⟨pairs, hpairs⟩ := Option.isSome_iff_exists.mp hsome
    rw [cleanFields, hpairs]
    rfl
  obtain ⟨fields, hfields⟩ := Option.isSome_iff_exists.mp hfields
  have hsaid : Archive.saidOf A time (membersOf line) =
      ⟨time, .str line.source, .str line.message, .str line.level, .str line.topic,
        .obj (setL (ascii "said_at") (.float line.time)
          (setL (ascii "seq") (.int (Archive.numberOf A (membersOf line))) line.fields))⟩ := rfl
  rw [hsaid]
  unfold lineOf cleanLevel cleanSource
  simp only [hlevel, hsource, htopic, hmessage, hfields, Option.bind_eq_bind, Option.bind_some, Option.isSome_some]

theorem highest_lines {time : Text} {m : ℤ} : ∀ {lines : List Json} {t : Archive.Taken},
    t.highest ≤ m → (∀ line ∈ lines, Archive.Numbered A line ∧ Archive.lineNumber A line ≤ m) →
    (lines.foldl (Archive.takeLine A time) t).highest ≤ m
  | [], _, h, _ => h
  | line :: lines, t, h, hlines => by
    obtain ⟨⟨members, rfl, hpos⟩, hle⟩ := hlines line List.mem_cons_self
    rw [List.foldl_cons]
    refine highest_lines ?_ fun x hx => hlines x (List.mem_cons_of_mem _ hx)
    rw [Archive.takeLine_eq time hpos]
    split_ifs
    · exact h
    · exact hle

/-- The machine's run has a name that travels. -/
structure Named (W : World) (run : Text) : Prop where
  clean : logRun W run = run
  named : run ≠ []

/-- **What the operator takes of a frame**: every line above what it has seen, and no number above the last. -/
theorem absorb_frame {A : Archive.State} (hA : Archive.Rooted A) (hint : IntOf W.archive) {all : List Line}
    {b : LogBook} (hkept : Kept all b) (hflat : ∀ line ∈ all, FlatLine line) {run : Text} (hrun : Named W run)
    (hf : FrameOk all run f) {t : ℕ} (hseen : A.archive.runOf W.node = run → A.archive.seenOf W.node ≤ t)
    (now : ℕ) (time token : Text) :
    let A' := Archive.step W.archive A (pageOf W f now time token)
    Archive.Rooted A' ∧ A'.archive.runOf W.node = run ∧ A'.archive.seenOf W.node ≤ topOf t [f] ∧
      (∀ pair ∈ A.pairs W.node, pair ∈ A'.pairs W.node) ∧
      ∀ line ∈ f.lines, t < line.seq → (run, (line.seq : ℤ)) ∈ A'.pairs W.node := by
  intro A'
  set page := pageOf W f now time token
  have hpage : page.lines = f.lines.map Client.asLine :=
    List.take_of_length_le (by rw [List.length_map]; exact hf.few)
  have hname : page.run = run := by
    show logRun W f.run = run
    rw [hf.run, hrun.clean]
  have hnumbered : ∀ line ∈ page.lines, Archive.Numbered W.archive line := by
    intro line hl
    rw [hpage] at hl
    obtain ⟨x, hx, rfl⟩ := List.mem_map.mp hl
    exact numbered_asLine hint (seq_mem hkept (hf.lines x hx)).1
  have hproper : Archive.Proper W.archive page := ⟨by rw [hname]; exact hrun.named, hnumbered⟩
  have hlow : Archive.low A.archive page ≤ t := by
    rw [Archive.low, hname]
    split_ifs with hsame
    · exact hseen hsame.symm
    · omega
  obtain ⟨-, hhigh⟩ := Archive.opening_found hA.tables hproper
  have htake : page.lines.take maxQuery = page.lines := by
    refine List.take_of_length_le ?_
    rw [hpage, List.length_map]
    exact hf.few
  have hpairs := Archive.pairs_step_own hA hproper
  refine ⟨Archive.rooted_step hA _, (Archive.runOf_absorb hA.tables hproper).trans hname, ?_, fun pair hp => ?_,
    fun line hl hlt => ?_⟩
  · have hseenOf : A'.archive.seenOf W.node = (Archive.taken W.archive A.archive page).highest :=
      Archive.seenOf_absorb hA.tables _
    have hstart := start_le_topOf t [f]
    rw [hseenOf, Archive.taken, htake]
    refine highest_lines ?_ fun line hl => ⟨hnumbered line hl, ?_⟩
    · rw [hhigh]
      omega
    · rw [hpage] at hl
      obtain ⟨x, hx, rfl⟩ := List.mem_map.mp hl
      have hle := (topOf_le_iff.mp (Nat.le_refl (topOf t [f]))).2 f List.mem_cons_self x hx
      rw [lineNumber_asLine hint]
      omega
  · show pair ∈ (Archive.step W.archive A page).pairs page.node
    rw [hpairs]
    exact List.mem_append_left _ hp
  · have hin : Client.asLine line ∈ page.lines := by
      rw [hpage]
      exact List.mem_map_of_mem hl
    have hclean : ∀ x ∈ page.lines, Archive.Numbered W.archive x ∧
        Archive.Cleanable W.archive page.time x := by
      intro x hx
      refine ⟨hnumbered x hx, ?_⟩
      rw [hpage] at hx
      obtain ⟨y, hy, rfl⟩ := List.mem_map.mp hx
      exact cleanable_asLine (hflat y (hf.lines y hy)) _
    have hsorted : (page.lines.map (Archive.lineNumber W.archive)).Pairwise (· ≤ ·) := by
      rw [hpage, List.map_map, List.pairwise_map]
      refine hf.up.imp fun {x y} hxy => ?_
      show Archive.lineNumber _ (Client.asLine x) ≤ Archive.lineNumber _ (Client.asLine y)
      rw [lineNumber_asLine hint, lineNumber_asLine hint]
      omega
    have htaken := Archive.taken_lines (Archive.enabled_taken (W := W.archive) hA.tables page)
      hclean hsorted (Or.inl hhigh) (Client.asLine line) hin (by rw [lineNumber_asLine hint]; omega)
    rw [lineNumber_asLine hint] at htaken
    show (run, (line.seq : ℤ)) ∈
      (Archive.step W.archive A page).pairs page.node
    rw [hpairs]
    refine List.mem_append_right _ (List.mem_map.mpr ⟨line.seq, ?_, by rw [hname]⟩)
    rw [Archive.taken, htake]
    exact htaken

end Absorbing

/-! ### The invariant -/

section Invariant

variable {W : World}

def Chain (all : List Line) (start : ℕ) (frames : List Frame) : Prop :=
  Each (fun pre f => Seam all (topOf start pre) f) frames

/-- **The invariant of a follow**: where requests and backlogs start was sent already, every frame joins those
before it, and what the operator took reaches as far as it has seen. -/
structure Inv (W : World) (start : ℕ) (s : Follow) : Prop where
  kept : Kept s.all s.book
  flat : ∀ line ∈ s.all, FlatLine line
  name : Named W s.book.run
  rooted : Archive.Rooted s.archive
  seen : s.archive.archive.runOf W.node = s.book.run →
    s.archive.archive.seenOf W.node ≤ topOf start s.absorbed
  asks : s.book.startAt (request W s).1 (request W s).2 ≤ topOf start s.absorbed
  requests : ∀ r ∈ s.requests, s.book.startAt r.1 r.2 ≤ s.top start
  looks : ∀ seq run, Job.look seq run ∈ s.jobs → s.book.startAt seq run ≤ s.top start
  pushes : ∀ f, Job.push f ∈ s.jobs → FrameOk s.all s.book.run f ∧ Seam s.all (s.top start) f
  queued : Upwards (s.inbox ++ s.outbox) ∧ ∀ line ∈ s.inbox ++ s.outbox, line ∈ s.all
  frames : ∀ f ∈ s.absorbed ++ s.frames, FrameOk s.all s.book.run f
  chain : Chain s.all start (s.absorbed ++ s.frames)
  covered : ∀ line ∈ s.all, start < line.seq → line.seq ≤ topOf start s.absorbed →
    (s.book.run, (line.seq : ℤ)) ∈ s.archive.pairs W.node ∨ ∃ f ∈ s.absorbed, f.Announces line

variable {all : List Line}

theorem inv_begin {book : LogBook} {archive : Archive.State} (hkept : Kept all book)
    (hflat : ∀ line ∈ all, FlatLine line) (hname : Named W book.run) (hrooted : Archive.Rooted archive) :
    Inv W (book.startAt (request W (begin book all archive)).1 (request W (begin book all archive)).2)
      (begin book all archive) := by
  refine ⟨hkept, hflat, hname, hrooted, fun hrun => ?_, Nat.le_refl _, fun _ h => (by cases h), fun _ _ h => (by cases h),
    fun _ h => (by cases h), ⟨List.Pairwise.nil, fun _ h => (by cases h)⟩, fun _ h => (by cases h), each_nil,
    fun line _ hlo hhi => ?_⟩
  · have hrun : archive.archive.runOf W.node = book.run := hrun
    show archive.archive.seenOf W.node ≤ (book.startAt (archive.archive.seenOf W.node).toNat
      (logRun W (archive.archive.runOf W.node)) : ℕ)
    rw [hrun, hname.clean, LogBook.startAt, if_neg fun hno => hno.2 rfl]
    exact Int.self_le_toNat _
  · exact absurd hlo (Nat.not_lt.mpr hhi)

variable {b : LogBook}

theorem seam_grow (hkept : Kept all b) {run : Text} {t : ℕ}
    (hf : FrameOk all run f) (h : Seam all t f) {new : List Line} (hnew : ∀ line ∈ new, line.seq = b.seq + 1) :
    Seam (all ++ new) t f := by
  intro line hl ht x hx hle
  rcases List.mem_append.mp hl with hl | hl
  · exact h line hl ht x hx hle
  · have hline := hnew line hl
    have := (seq_mem hkept (hf.lines x hx)).2
    omega

theorem frameOk_grow {run : Text} (hf : FrameOk all run f) (new : List Line) :
    FrameOk (all ++ new) run f :=
  ⟨hf.run, fun line hl => List.mem_append_left _ (hf.lines line hl), hf.up, hf.few⟩

theorem queued_grow {queue : List Line} (hkept : Kept all b) (hup : Upwards queue)
    (hin : ∀ line ∈ queue, line ∈ all) {o : Op} {P : Book.World} :
    Upwards (queue ++ recorded P b o) ∧ ∀ line ∈ queue ++ recorded P b o, line ∈ all ++ recorded P b o := by
  refine ⟨List.pairwise_append.mpr ⟨hup, ?_, fun x hx y hy => ?_⟩, fun line hl => ?_⟩
  · cases o with
    | record s =>
      show Upwards (if b.enabled then (lineOf P (b.seq + 1) s).toList else [])
      split_ifs
      · cases lineOf P (b.seq + 1) s with
        | none => exact List.Pairwise.nil
        | some line => exact List.pairwise_singleton _ _
      · exact List.Pairwise.nil
    | hold | release | resize | clear | stop => exact List.Pairwise.nil
  · have := (seq_mem hkept (hin x hx)).2
    have := recorded_seq hy
    omega
  · rcases List.mem_append.mp hl with hl | hl
    · exact List.mem_append_left _ (hin line hl)
    · exact List.mem_append_right _ hl

theorem flat_recorded {P : Book.World} {o : Op} : ∀ line ∈ recorded P b o, FlatLine line := by
  intro line hl
  cases o with
  | record s =>
    have hl : line ∈ if b.enabled then (lineOf P (b.seq + 1) s).toList else [] := hl
    split_ifs at hl
    · exact flat_lineOf (Option.mem_toList.mp hl)
    · cases hl
  | hold | release | resize | clear | stop => cases hl

variable {start : ℕ} {s : Follow}

theorem inv_op (h : Inv W start s) (o : Op) (room : Bool) : Inv W start (step W s (.op o room)) := by
  have hrun : (s.book.apply W.rings o).run = s.book.run := run_apply s.book o
  have hstart : ∀ seq run, (s.book.apply W.rings o).startAt seq run = s.book.startAt seq run :=
    fun seq run => startAt_apply s.book o seq run
  have hnew : ∀ line ∈ recorded W.rings s.book o, line.seq = s.book.seq + 1 := fun _ hl => recorded_seq hl
  have htop : topOf start s.absorbed ≤ max start s.book.seq := by
    refine topOf_le_iff.mpr ⟨Nat.le_max_left _ _, fun f hf line hl => ?_⟩
    have hin := (h.frames f (List.mem_append_left _ hf)).lines line hl
    exact (seq_mem h.kept hin).2.trans (Nat.le_max_right _ _)
  refine ⟨kept_apply h.kept o, fun line hl => ?_, ?_, h.rooted, fun hknown => ?_, ?_, fun r hr => ?_,
    fun seq run hj => ?_, fun f hf => ?_, ?_, fun f hf => ?_, ?_, fun line hl hlo hhi => ?_⟩
  · rcases List.mem_append.mp hl with hl | hl
    · exact h.flat line hl
    · exact flat_recorded line hl
  · show Named W (s.book.apply W.rings o).run
    rw [hrun]
    exact h.name
  · refine h.seen ?_
    rw [← hrun]
    exact hknown
  · exact (hstart _ _).trans_le h.asks
  · exact (hstart _ _).trans_le (h.requests r hr)
  · exact (hstart _ _).trans_le (h.looks seq run hj)
  · obtain ⟨hok, hseam⟩ := h.pushes f hf
    show FrameOk _ (s.book.apply W.rings o).run f ∧ _
    rw [hrun]
    exact ⟨frameOk_grow hok _, seam_grow h.kept hok hseam hnew⟩
  · rw [step]
    simp only
    split_ifs
    · rw [← List.append_assoc]
      exact queued_grow h.kept h.queued.1 h.queued.2
    · exact ⟨h.queued.1, fun line hl => List.mem_append_left _ (h.queued.2 line hl)⟩
  · show FrameOk _ (s.book.apply W.rings o).run f
    rw [hrun]
    exact frameOk_grow (h.frames f hf) _
  · intro pre f post heq
    have hf : f ∈ s.absorbed ++ s.frames := heq ▸ List.mem_append_right pre List.mem_cons_self
    exact seam_grow h.kept (h.frames f hf) (h.chain pre f post heq) hnew
  · show ((s.book.apply W.rings o).run, _) ∈ _ ∨ _
    rw [hrun]
    rcases List.mem_append.mp hl with hl | hl
    · exact h.covered line hl hlo hhi
    · have hseq := hnew line hl
      have hhi : line.seq ≤ topOf start s.absorbed := hhi
      omega

theorem inv_frames (h : Inv W start s) {new : List Frame} (hone : new.length ≤ 1)
    (hnew : ∀ f ∈ new, FrameOk s.all s.book.run f ∧ Seam s.all (s.top start) f) {jobs : List Job}
    (hjobs : ∀ j ∈ jobs, j ∈ s.jobs) {inbox : List Line} (hinbox : (inbox ++ s.outbox).Sublist (s.inbox ++ s.outbox)) :
    Inv W start { s with frames := s.frames ++ new, jobs := jobs, inbox := inbox } := by
  have htop : s.top start ≤ topOf start (s.absorbed ++ (s.frames ++ new)) := by
    rw [← List.append_assoc]
    exact topOf_le_append _ _ _
  refine ⟨h.kept, h.flat, h.name, h.rooted, h.seen, h.asks, fun r hr => (h.requests r hr).trans htop,
    fun seq run hj => (h.looks seq run (hjobs _ hj)).trans htop, fun f hf => ?_,
    ⟨h.queued.1.sublist hinbox, fun line hl => h.queued.2 line (hinbox.subset hl)⟩, fun f hf => ?_, ?_, h.covered⟩
  · obtain ⟨hok, hseam⟩ := h.pushes f (hjobs _ hf)
    exact ⟨hok, seam_mono hseam htop⟩
  · have hf : f ∈ s.absorbed ++ (s.frames ++ new) := hf
    rw [← List.append_assoc] at hf
    rcases List.mem_append.mp hf with hf | hf
    · exact h.frames f hf
    · exact (hnew f hf).1
  · show Chain s.all start (s.absorbed ++ (s.frames ++ new))
    rw [← List.append_assoc]
    refine each_append.mpr ⟨h.chain, ?_⟩
    match new, hone, hnew with
    | [], _, _ => exact each_nil
    | [f], _, hnew =>
      refine each_cons.mpr ⟨?_, each_nil⟩
      rw [List.append_nil]
      exact (hnew f List.mem_cons_self).2

theorem length_toList {α : Type} (o : Option α) : o.toList.length ≤ 1 := by
  cases o with
  | none => exact Nat.zero_le 1
  | some x => exact Nat.le_refl 1

theorem inv_send (h : Inv W start s) (k : ℕ) : Inv W start (step W s (.send k)) := by
  rw [step]
  split
  · next f hjob =>
    obtain ⟨hok, hseam⟩ := h.pushes f (List.mem_of_getElem? hjob)
    refine inv_frames h ?_ (fun f' hf' => ?_) (fun j hj => List.mem_of_mem_eraseIdx hj) (List.Sublist.refl _)
    · unfold sendBacklog
      split_ifs
      · exact Nat.zero_le 1
      · exact length_toList _
    · unfold sendBacklog at hf'
      split_ifs at hf'
      · cases hf'
      · obtain ⟨lines, hlines, rfl⟩ := Option.map_eq_some_iff.mp (Option.mem_toList.mp hf')
        obtain ⟨n, rfl⟩ := dumpJson_take hlines
        exact ⟨frameOk_take hok n, seam_take hok.up hseam n⟩
  · exact h

theorem inv_turn (h : Inv W start s) (hsafe : Safe start s .turn) : Inv W start (step W s .turn) := by
  refine inv_frames h ?_ (fun f hf => ?_) (fun j hj => hj) ((List.drop_sublist _ _).append_right _)
  · split_ifs
    · unfold sendLive
      split_ifs
      · exact Nat.zero_le 1
      · exact length_toList _
    · exact Nat.zero_le 1
  · split_ifs at hf with hfollowing
    · unfold sendLive at hf
      split_ifs at hf
      · cases hf
      · obtain ⟨lines, hlines, rfl⟩ := Option.map_eq_some_iff.mp (Option.mem_toList.mp hf)
        obtain ⟨n, rfl⟩ := dumpJson_take hlines
        have hup : Upwards (s.inbox.take linesPerPush) :=
          h.queued.1.sublist ((List.take_sublist _ _).trans (List.sublist_append_left _ _))
        have hok : FrameOk s.all s.book.run ⟨0, s.inbox.take linesPerPush, 0, logRun W s.book.run⟩ := by
          refine ⟨h.name.clean, fun line hl => ?_, hup, ?_⟩
          · exact h.queued.2 line (List.mem_append_left _ (List.mem_of_mem_take hl))
          · show (s.inbox.take linesPerPush).length ≤ maxQuery
            rw [List.length_take]
            exact (Nat.min_le_left _ _).trans (by decide)
        have hseam : Seam s.all (s.top start) ⟨0, s.inbox.take linesPerPush, 0, logRun W s.book.run⟩ :=
          fun line hl ht x hx hle => Or.inl (hsafe hfollowing x hx line hl ht hle)
        exact ⟨frameOk_take hok n, seam_take hup hseam n⟩
    · cases hf

/-- **A backlog joins what was sent**, where the ring tells of what it dropped. -/
theorem backlog_ok (hkept : Kept all b) (hname : Named W b.run) {seq : ℕ}
    {run : Text} (hheard : Heard b (b.startAt seq run)) :
    FrameOk all b.run (backlog W b seq run) ∧ Seam all (b.startAt seq run) (backlog W b seq run) := by
  obtain ⟨hlines, -, -⟩ := since_spec hkept seq run (some maxQuery) fun _ => true
  have hrun : (b.since seq run (some maxQuery) fun _ => true).run = b.run := rfl
  generalize hpage : (b.since seq run (some maxQuery) fun _ => true) = page at hlines hrun
  obtain ⟨k, hk⟩ := Client.fit_lines page.lines.length page.lines.length page
  have hbacklog : backlog W b seq run =
      { (⟨b.startAt seq run, page.lines, page.lost, b.run⟩ : Frame) with lines := page.lines.take k } := by
    unfold backlog
    rw [hpage, Client.sent, hk]
    show Frame.mk _ _ _ (logRun W page.run) = Frame.mk _ _ _ b.run
    rw [hrun, hname.clean]
  have hup : Upwards page.lines := by
    rw [hlines]
    exact ((upwards_held hkept).filter _).filter _
  have hfew : page.lines.length ≤ maxQuery := by
    rw [← hpage]
    exact since_few _ _ _ _ _
  rw [hbacklog]
  refine ⟨frameOk_take (f := ⟨b.startAt seq run, page.lines, page.lost, b.run⟩) ⟨rfl, fun line hl => ?_, hup, hfew⟩ k,
    seam_take hup (fun line hl ht x hx hle => ?_) k⟩
  · have hl : line ∈ page.lines := hl
    rw [hlines] at hl
    exact hkept.held.subset (List.mem_filter.mp (List.mem_filter.mp hl).1).1
  · have hx : x ∈ page.lines := hx
    rw [hlines] at hx
    have hbetween := of_decide_eq_true (List.mem_filter.mp (List.mem_filter.mp hx).1).2
    obtain ⟨-, -, htells⟩ := @tells_of_heard _ _ hkept _ _ hheard (some maxQuery) (fun _ => true) _ hl ht
      (by rw [hpage]; omega)
    rcases htells with hin | hkeep | hlost
    · rw [hpage] at hin
      exact Or.inl hin
    · cases hkeep
    · rw [hpage] at hlost
      exact Or.inr ⟨ht, hlost⟩

theorem inv_look (h : Inv W start s) {k : ℕ} (hsafe : Safe start s (.look k)) :
    Inv W start (step W s (.look k)) := by
  rw [step]
  split
  · next seq run hjob =>
    have hlow := h.looks seq run (List.mem_of_getElem? hjob)
    obtain ⟨hok, hseam⟩ := backlog_ok (W := W) h.kept h.name (hsafe seq run hjob)
    refine ⟨h.kept, h.flat, h.name, h.rooted, h.seen, h.asks, h.requests, fun seq' run' hj => ?_, fun f hf => ?_,
      h.queued, h.frames, h.chain, h.covered⟩
    · rcases List.mem_or_eq_of_mem_set hj with hj | hj
      · exact h.looks seq' run' hj
      · cases hj
    · rcases List.mem_or_eq_of_mem_set hf with hf | hf
      · exact h.pushes f hf
      · rw [Job.push.inj hf]
        exact ⟨hok, seam_mono hseam hlow⟩
  · exact h

theorem inv_register (h : Inv W start s) (k : ℕ) : Inv W start (step W s (.register k)) := by
  rw [step]
  split
  · exact h
  · next seq run hreq =>
    refine ⟨h.kept, h.flat, h.name, h.rooted, h.seen, h.asks,
      fun r hr => h.requests r (List.mem_of_mem_eraseIdx hr), fun seq' run' hj => ?_, fun f hf => ?_, h.queued,
      h.frames, h.chain, h.covered⟩
    · rcases List.mem_append.mp hj with hj | hj
      · exact h.looks seq' run' hj
      · obtain ⟨rfl, rfl⟩ := Job.look.inj (List.mem_singleton.mp hj)
        exact h.requests _ (List.mem_of_getElem? hreq)
    · rcases List.mem_append.mp hf with hf | hf
      · exact h.pushes f hf
      · cases List.mem_singleton.mp hf

theorem inv_renew (h : Inv W start s) : Inv W start (step W s .renew) := by
  refine ⟨h.kept, h.flat, h.name, h.rooted, h.seen, h.asks, fun r hr => ?_, h.looks, h.pushes, h.queued, h.frames,
    h.chain, h.covered⟩
  rcases List.mem_append.mp hr with hr | hr
  · exact h.requests r hr
  · rw [List.mem_singleton.mp hr]
    exact h.asks.trans (topOf_le_append _ _ _)

theorem inv_queue (h : Inv W start s) {inbox outbox : List Line}
    (hsub : (inbox ++ outbox).Sublist (s.inbox ++ s.outbox)) :
    Inv W start { s with inbox := inbox, outbox := outbox } :=
  ⟨h.kept, h.flat, h.name, h.rooted, h.seen, h.asks, h.requests, h.looks, h.pushes,
    ⟨h.queued.1.sublist hsub, fun x hx => h.queued.2 x (hsub.subset hx)⟩, h.frames, h.chain, h.covered⟩

theorem inv_deliver (h : Inv W start s) : Inv W start (step W s .deliver) := by
  rw [step]
  split
  · exact h
  · next line rest hout =>
    refine inv_queue h ?_
    have hmoved : s.inbox ++ s.outbox = (s.inbox ++ [line]) ++ rest := by
      rw [hout, List.append_assoc, List.singleton_append]
    rw [hmoved]
    exact (List.drop_sublist _ _).append_right _

theorem inv_absorb (hint : IntOf W.archive) (h : Inv W start s) (now : ℕ)
    (time token : Text) : Inv W start (step W s (.absorb now time token)) := by
  rw [step]
  split
  · exact h
  · next f rest hframes =>
    have hf : f ∈ s.absorbed ++ s.frames := by
      rw [hframes]
      exact List.mem_append_right _ List.mem_cons_self
    have hsplit : s.absorbed ++ s.frames = (s.absorbed ++ [f]) ++ rest := by
      rw [hframes, List.append_assoc, List.singleton_append]
    have htop : topOf start ((s.absorbed ++ [f]) ++ rest) = s.top start := by
      rw [← hsplit]
      rfl
    have hseam : Seam s.all (topOf start s.absorbed) f := h.chain s.absorbed f rest (by rw [hframes])
    obtain ⟨hrooted, hrun, hseen, hkeeps, htakes⟩ :=
      absorb_frame (W := W) h.rooted hint h.kept h.flat h.name (h.frames f hf) h.seen now time token
    rw [← topOf_append] at hseen
    refine ⟨h.kept, h.flat, h.name, hrooted, fun _ => hseen, ?_, fun r hr => ?_, fun seq run hj => ?_, fun g hg => ?_,
      h.queued, fun g hg => ?_, ?_, fun line hl hlo hhi => ?_⟩
    · show s.book.startAt (Archive.LogArchive.seenOf _ _).toNat (logRun W (Archive.LogArchive.runOf _ _)) ≤ _
      rw [hrun, h.name.clean, LogBook.startAt, if_neg fun hno => hno.2 rfl]
      exact Int.toNat_le.mpr hseen
    · exact (h.requests r hr).trans_eq htop.symm
    · exact (h.looks seq run hj).trans_eq htop.symm
    · obtain ⟨hok, hjoins⟩ := h.pushes g hg
      exact ⟨hok, seam_mono hjoins htop.symm.le⟩
    · exact h.frames g (by rw [hsplit]; exact hg)
    · show Chain s.all start ((s.absorbed ++ [f]) ++ rest)
      rw [← hsplit]
      exact h.chain
    · by_cases hold : line.seq ≤ topOf start s.absorbed
      · rcases h.covered line hl hlo hold with hin | ⟨g, hg, hlost⟩
        · exact Or.inl (hkeeps _ hin)
        · exact Or.inr ⟨g, List.mem_append_left _ hg, hlost⟩
      · have hnew : topOf start s.absorbed < line.seq := Nat.lt_of_not_le hold
        have hreach : ∃ x ∈ f.lines, line.seq ≤ x.seq := by
          by_contra hno
          have hle : topOf start (s.absorbed ++ [f]) ≤ line.seq - 1 := by
            rw [topOf_append]
            refine topOf_le_iff.mpr ⟨by omega, fun g hg x hx => ?_⟩
            rw [List.mem_singleton.mp hg] at hx
            have : ¬ line.seq ≤ x.seq := fun hle => hno ⟨x, hx, hle⟩
            omega
          have hhi : line.seq ≤ topOf start (s.absorbed ++ [f]) := hhi
          omega
        obtain ⟨x, hx, hle⟩ := hreach
        rcases hseam line hl hnew x hx hle with hin | hlost
        · exact Or.inl (htakes line hin hnew)
        · exact Or.inr ⟨f, List.mem_append_right _ List.mem_cons_self, hlost⟩

theorem inv_step (hint : IntOf W.archive) (h : Inv W start s) {e : Event}
    (hsafe : Safe start s e) : Inv W start (step W s e) := by
  cases e with
  | op o room => exact inv_op h o room
  | deliver => exact inv_deliver h
  | renew => exact inv_renew h
  | register k => exact inv_register h k
  | look k => exact inv_look h hsafe
  | send k => exact inv_send h k
  | turn => exact inv_turn h hsafe
  | expire | unwatch =>
    exact ⟨h.kept, h.flat, h.name, h.rooted, h.seen, h.asks, h.requests, h.looks, h.pushes, h.queued, h.frames,
      h.chain, h.covered⟩
  | absorb now time token => exact inv_absorb hint h now time token

theorem noHole_of_inv (h : Inv W start s) : NoHole W start s := by
  intro hrun line hl hlo hhi
  have hseen := h.seen hrun
  exact h.covered line hl hlo (by omega)

theorem flat_run (ops : List Op) : ∀ {w : Follower.World}, (∀ line ∈ w.all, FlatLine line) →
    ∀ line ∈ (run (Follower.step W.rings) w (ops.map Follower.Event.op)).all, FlatLine line := by
  induction ops with
  | nil => exact fun h => h
  | cons o ops ih =>
    refine fun h => ih fun line hl => ?_
    rcases List.mem_append.mp hl with hl | hl
    · exact h line hl
    · exact flat_recorded line hl

/-- An agent with any ring that its node made of operations, and an operator that took in any pages. -/
def opening (W : World) (r : Text) (before : List Op) (default : ℤ) (pages : List Archive.Page) : Follow :=
  begin (run (Follower.step W.rings) (fresh r) (before.map Follower.Event.op)).book
    (run (Follower.step W.rings) (fresh r) (before.map Follower.Event.op)).all
    (run (Archive.step W.archive) (Archive.fresh default) pages)

end Invariant

/-! ### Two follows -/

def plainFleet : World := ⟨plainWorld, Archive.plain, ascii "node", ascii "0000000000000000"⟩

/-- A machine whose ring holds one line, and an operator that has heard nothing of it. -/
def oneLine : Follow := opening plainFleet (ascii "ab") [.hold [] none, .record hello] 1 []

theorem named_ab : Named plainFleet (ascii "ab") := ⟨by decide, by decide⟩

def early : List Event :=
  [.renew, .register 0, .op (.record hello) true, .deliver, .turn, .absorb 1 (ascii "1.0") [], .look 0, .send 0,
    .absorb 2 (ascii "2.0") []]

end NMesh.Logs.Fleet
