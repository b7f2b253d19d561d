import Talea.Log.BookNames

/-!
# Directory entries

A file whose directory entry is lost by a power failure is absent when the store
is opened again, whatever of its data was synced.  A new entry is durable once
the directory it was created in has been synced.  The store syncs a book's
directory whenever it creates a segment file in it, and no directory above.
-/

namespace Talea.Log.Dirents

/-! ## The tree -/

/-- What an entry leads to; paths are those below the store's directory. -/
inductive Place
  | dir (path : List String)
  | segment (dir : List String) (base : Int)
  deriving DecidableEq

/-- The directory that has the entry. -/
def Place.parent : Place → List String
  | .dir path => path.dropLast
  | .segment home _ => home

/-- The entries, and those of them that the store has created in a directory
that was not synced since. -/
structure Tree where
  entries : List Place
  unsynced : List Place
  deriving DecidableEq

namespace Tree

def create (tree : Tree) (place : Place) : Tree :=
  if place ∈ tree.entries then tree
  else ⟨place :: tree.entries, place :: tree.unsynced⟩

def fsyncDir (tree : Tree) (dir : List String) : Tree :=
  { tree with unsynced := tree.unsynced.filter fun place => place.parent ≠ dir }

/-- A path and all directories on the way to it. -/
def components (path : List String) : List (List String) :=
  path.inits.tail

/-- Each missing directory of a path is created, and nothing is synced. -/
def createDirAll (tree : Tree) (path : List String) : Tree :=
  (components path).foldl (fun tree dir => tree.create (.dir dir)) tree

/-- The base seqs of the segments of a directory. -/
def bases (tree : Tree) (dir : List String) : List Int :=
  tree.entries.filterMap fun
    | .segment home base => if home = dir then some base else none
    | .dir _ => none

/-- The segment that is written to: the last one, or the first one of a directory
that has none. -/
def finalBase (tree : Tree) (dir : List String) : Int :=
  (tree.bases dir).max?.getD 1

/-- Open the segments of a directory; it may fail before the entry of a new
first one is synced. -/
def openWithMax (tree : Tree) (dir : List String) (synced : Bool) : Tree :=
  let opened := tree.create (.segment dir (tree.finalBase dir))
  if synced then opened.fsyncDir dir else opened

/-- The names of the directories of the books. -/
def bookNames (tree : Tree) : List String :=
  tree.entries.filterMap fun
    | .dir [first, name] => if [first] = booksDir then some name else none
    | _ => none

def HasDir (tree : Tree) (path : List String) : Prop :=
  ∀ dir ∈ components path, .dir dir ∈ tree.entries

instance (tree : Tree) (path : List String) : Decidable (tree.HasDir path) :=
  inferInstanceAs (Decidable (∀ dir ∈ components path, .dir dir ∈ tree.entries))

end Tree

/-! ## What the store does -/

/-- The writer of a book, with the catalog of its segments, the one it appends to,
and those that the frames of its batch are in. -/
structure Writer where
  book : String
  dir : List String
  catalog : List Int
  active : Int
  pending : List Int
  failed : Bool
  deriving DecidableEq

/-- The store, open or not, with the segments that hold acknowledged events. -/
structure Store where
  tree : Tree
  isOpen : Bool
  writers : List Writer
  acked : List (List String × Int)
  deriving DecidableEq

/-- Where the creation of a book's writer ends: behind the book's directory,
behind its first segment, or behind the sync of the entry. -/
inductive Stage
  | dirCreated
  | segmentCreated
  | done
  deriving DecidableEq

/-- A rotation may come before any frame.  The calls that a commit answers may
repeat others, whose events are in segments that are there already. -/
inductive Event
  | openWith (names : List String)
  | openFails (names : List String) (last : Option String)
  | getOrCreate (book : String) (stage : Stage)
  | rotate (writer : ℕ) (nextSeq : Int) (synced : Bool)
  | append (writer : ℕ)
  | commit (writer : ℕ) (repeated : List Int)
  | publish (writer : ℕ)
  | fail (writer : ℕ)
  | close
  deriving DecidableEq

/-- A writer that opens the segments of a directory. -/
def Writer.spawn (tree : Tree) (book : String) (dir : List String) : Writer :=
  ⟨book, dir, (tree.bases dir).insert (tree.finalBase dir), tree.finalBase dir, [], false⟩

def Writer.rotated (writer : Writer) (nextSeq : Int) (synced : Bool) : Writer :=
  if synced then
    { writer with catalog := writer.catalog.insert nextSeq, active := nextSeq }
  else { writer with failed := true }

namespace Store

/-- A directory in which some other program may have created entries, and the
store none. -/
def fresh (entries : List Place) : Store :=
  ⟨⟨entries, []⟩, false, [], []⟩

/-- The directories of books are opened one by one, each with its writer. -/
def openBooks (tree : Tree) : List String → Tree × List Writer
  | [] => (tree, [])
  | name :: names =>
      let dir := booksDir ++ [name]
      let rest := openBooks (tree.openWithMax dir true) names
      (rest.1, .spawn tree name dir :: rest.2)

/-- A writer that has not failed. -/
def live (store : Store) (writer : ℕ) : Option Writer :=
  store.writers[writer]?.filter fun task => !task.failed

def openWith (store : Store) (names : List String) : Option Store :=
  if !store.isOpen && decide (names.Nodup ∧ names.toFinset = store.tree.bookNames.toFinset)
  then
    let opened := openBooks (store.tree.createDirAll booksDir) names
    some { store with tree := opened.1, isOpen := true, writers := opened.2 }
  else none

def openFails (store : Store) (names : List String) (last : Option String) : Option Store :=
  if !store.isOpen && names.all (· ∈ store.tree.bookNames) && last.all (· ∈ store.tree.bookNames)
  then
    let tree := (openBooks (store.tree.createDirAll booksDir) names).1
    some { store with
      tree := last.elim tree fun name => tree.openWithMax (booksDir ++ [name]) false }
  else none

/-- The writer of a book that is not in the map, for a call that writes to it or
subscribes to it. -/
def getOrCreate (store : Store) (book : String) (stage : Stage) : Option Store :=
  if store.isOpen && validateBookName book && store.writers.all (·.book ≠ book) then
    let dir := bookPath book
    let tree := store.tree.createDirAll dir
    match stage with
    | .dirCreated => some { store with tree }
    | .segmentCreated => some { store with tree := tree.openWithMax dir false }
    | .done =>
        some { store with
          tree := tree.openWithMax dir true
          writers := store.writers ++ [.spawn tree book dir] }
  else none

def rotate (store : Store) (writer : ℕ) (nextSeq : Int) (synced : Bool) : Option Store :=
  (store.live writer).map fun task =>
    let tree := store.tree.create (.segment task.dir nextSeq)
    { store with
      tree := if synced then tree.fsyncDir task.dir else tree
      writers := store.writers.set writer (task.rotated nextSeq synced) }

/-- A frame of the batch is in the active segment. -/
def append (store : Store) (writer : ℕ) : Option Store :=
  (store.live writer).map fun task =>
    { store with
      writers := store.writers.set writer { task with pending := task.active :: task.pending } }

/-- The batch is synced, and its calls are answered. -/
def commit (store : Store) (writer : ℕ) (repeated : List Int) : Option Store :=
  (store.live writer).bind fun task =>
    if repeated ⊆ task.catalog then
      some { store with
        writers := store.writers.set writer { task with pending := [] }
        acked := (task.pending ++ repeated).map (task.dir, ·) ++ store.acked }
    else none

/-- A snapshot or a run file is published in the directory of a book. -/
def publish (store : Store) (writer : ℕ) : Option Store :=
  (store.live writer).map fun task => { store with tree := store.tree.fsyncDir task.dir }

def fail (store : Store) (writer : ℕ) : Option Store :=
  (store.live writer).map fun task =>
    { store with writers := store.writers.set writer { task with failed := true } }

/-- The store is closed, or its process ends. -/
def close (store : Store) : Option Store :=
  some { store with isOpen := false, writers := [] }

def step (store : Store) : Event → Option Store
  | .openWith names => store.openWith names
  | .openFails names last => store.openFails names last
  | .getOrCreate book stage => store.getOrCreate book stage
  | .rotate writer nextSeq synced => store.rotate writer nextSeq synced
  | .append writer => store.append writer
  | .commit writer repeated => store.commit writer repeated
  | .publish writer => store.publish writer
  | .fail writer => store.fail writer
  | .close => store.close

end Store

/-! ## What is durable -/

/-- On the way from the store's directory to a segment. -/
def onTheWay (segment : List String × Int) : List Place :=
  (Tree.components segment.1).map .dir ++ [.segment segment.1 segment.2]

/-- Each entry that the store created on the way to a segment with acknowledged
events has been synced. -/
def AckedDurable (store : Store) : Prop :=
  ∀ segment ∈ store.acked, ∀ place ∈ onTheWay segment, place ∉ store.tree.unsynced

/-- The moment a commit is acknowledged. -/
def CommitsDurable (store : Store) : Event → Prop
  | .commit writer repeated =>
      ∀ next, store.commit writer repeated = some next → AckedDurable next
  | _ => True

/-- The directories that the step needs are there. -/
def FindsDirs (store : Store) : Event → Prop
  | .openWith _ | .openFails _ _ => store.tree.HasDir booksDir
  | .getOrCreate book _ => store.tree.HasDir (bookPath book)
  | _ => True

instance (store : Store) : ∀ event, Decidable (FindsDirs store event)
  | .openWith _ | .openFails _ _ => inferInstanceAs (Decidable (store.tree.HasDir booksDir))
  | .getOrCreate book _ => inferInstanceAs (Decidable (store.tree.HasDir (bookPath book)))
  | .rotate _ _ _ | .append _ | .commit _ _ | .publish _ | .fail _ | .close => isTrue trivial

namespace Tree

variable {tree next last : Tree} {place : Place}

structure Durable (tree : Tree) (place : Place) : Prop where
  mem : place ∈ tree.entries
  synced : place ∉ tree.unsynced

/-- What is durable stays so, and no directory is new. -/
structure Grows (tree next : Tree) : Prop where
  durable : ∀ place, tree.Durable place → next.Durable place
  dirs : ∀ path, .dir path ∈ next.unsynced → .dir path ∈ tree.unsynced

theorem Grows.refl (tree : Tree) : tree.Grows tree :=
  ⟨fun _ => id, fun _ => id⟩

theorem Grows.trans (hfirst : tree.Grows next) (hsecond : next.Grows last) : tree.Grows last :=
  ⟨fun place hplace => hsecond.durable place (hfirst.durable place hplace),
    fun path hpath => hfirst.dirs path (hsecond.dirs path hpath)⟩

theorem Durable.create (hdurable : tree.Durable place) (other : Place) :
    (tree.create other).Durable place := by
  unfold Tree.create
  split
  · exact hdurable
  · next hnew =>
      refine ⟨List.mem_cons_of_mem _ hdurable.mem, fun hmem => ?_⟩
      rcases List.mem_cons.1 hmem with rfl | hold
      · exact hnew hdurable.mem
      · exact hdurable.synced hold

theorem mem_create_of_mem (hmem : place ∈ tree.entries) (other : Place) :
    place ∈ (tree.create other).entries := by
  unfold create
  split
  · exact hmem
  · exact List.mem_cons_of_mem _ hmem

theorem mem_bases {dir : List String} {base : Int} :
    base ∈ tree.bases dir ↔ .segment dir base ∈ tree.entries := by
  unfold bases
  rw [List.mem_filterMap]
  constructor
  · rintro ⟨place, hplace, hbase⟩
    cases place with
    | dir path => cases hbase
    | segment home other =>
        obtain ⟨rfl, hsame⟩ := Option.ite_none_right_eq_some.1 hbase
        cases hsame
        exact hplace
  · exact fun hmem => ⟨.segment dir base, hmem, if_pos rfl⟩

theorem mem_create (tree : Tree) (place : Place) : place ∈ (tree.create place).entries := by
  unfold create
  split
  · assumption
  · exact List.mem_cons_self

/-- A segment file is created, and no directory. -/
theorem grows_create (tree : Tree) (dir : List String) (base : Int) :
    tree.Grows (tree.create (.segment dir base)) := by
  refine ⟨fun place hplace => hplace.create _, fun path hpath => ?_⟩
  unfold create at hpath
  split at hpath
  · exact hpath
  · exact (List.mem_cons.1 hpath).resolve_left (by simp)

theorem grows_fsyncDir (tree : Tree) (dir : List String) : tree.Grows (tree.fsyncDir dir) :=
  ⟨fun _ hplace => ⟨hplace.mem, fun hmem => hplace.synced (List.mem_filter.1 hmem).1⟩,
    fun _ hpath => (List.mem_filter.1 hpath).1⟩

/-- An entry is durable once its directory has been synced. -/
theorem durable_fsyncDir (hmem : place ∈ tree.entries) :
    (tree.fsyncDir place.parent).Durable place :=
  ⟨hmem, fun hunsynced => of_decide_eq_true (List.mem_filter.1 hunsynced).2 rfl⟩

theorem createDirAll_of_hasDir {path : List String} (hdir : tree.HasDir path) :
    tree.createDirAll path = tree := by
  unfold HasDir at hdir
  unfold createDirAll
  generalize components path = dirs at hdir
  induction dirs with
  | nil => rfl
  | cons dir rest ih =>
      rw [List.foldl_cons, create, if_pos (hdir dir List.mem_cons_self)]
      exact ih fun other hother => hdir other (List.mem_cons_of_mem _ hother)

theorem grows_openWithMax (tree : Tree) (dir : List String) (synced : Bool) :
    tree.Grows (tree.openWithMax dir synced) := by
  have hcreate := tree.grows_create dir (tree.finalBase dir)
  unfold openWithMax
  split
  · exact hcreate.trans (grows_fsyncDir _ dir)
  · exact hcreate

end Tree

/-! ## Runs that find their directories -/

/-- The segments of a writer that has not failed are durable. -/
structure Writer.Sound (tree : Tree) (task : Writer) : Prop where
  active : task.active ∈ task.catalog
  pending : task.pending ⊆ task.catalog
  catalog : ∀ base ∈ task.catalog, tree.Durable (.segment task.dir base)

def Writer.Safe (tree : Tree) (task : Writer) : Prop :=
  task.failed = false → task.Sound tree

theorem Writer.Safe.grows {tree next : Tree} {task : Writer} (hsafe : task.Safe tree)
    (hgrows : tree.Grows next) : task.Safe next :=
  fun hworks =>
    { hsafe hworks with
      catalog := fun base hbase => hgrows.durable _ ((hsafe hworks).catalog base hbase) }

/-- The segments that a new writer opens have been synced. -/
theorem Writer.safe_spawn (tree : Tree) (book : String) (dir : List String) :
    (Writer.spawn tree book dir).Safe (tree.openWithMax dir true) := by
  intro _
  refine ⟨List.mem_insert_self, List.nil_subset _, fun base hbase => ?_⟩
  have hmem : .segment dir base ∈
      (tree.create (.segment dir (tree.finalBase dir))).entries := by
    rcases List.mem_insert_iff.1 hbase with rfl | hold
    · exact tree.mem_create _
    · exact Tree.mem_create_of_mem (Tree.mem_bases.1 hold) _
  exact Tree.durable_fsyncDir hmem

theorem Store.grows_openBooks (tree : Tree) (names : List String) :
    tree.Grows (Store.openBooks tree names).1 := by
  induction names generalizing tree with
  | nil => exact .refl tree
  | cons name names ih => exact (tree.grows_openWithMax _ true).trans (ih _)

theorem Store.safe_openBooks (tree : Tree) (names : List String) :
    ∀ task ∈ (Store.openBooks tree names).2, task.Safe (Store.openBooks tree names).1 := by
  induction names generalizing tree with
  | nil =>
      intro task hmem
      cases hmem
  | cons name names ih =>
      intro task hmem
      rcases List.mem_cons.1 hmem with rfl | hrest
      · exact (Writer.safe_spawn tree name _).grows (Store.grows_openBooks _ names)
      · exact ih _ task hrest

structure Linked (store : Store) : Prop where
  dirs : ∀ path, .dir path ∉ store.tree.unsynced
  writers : ∀ task ∈ store.writers, task.Safe store.tree
  acked : ∀ segment ∈ store.acked, store.tree.Durable (.segment segment.1 segment.2)

section Steps

variable {store next : Store} {task : Writer} {writer : ℕ}

theorem Linked.ackedDurable (hlinked : Linked store) : AckedDurable store := by
  intro segment hsegment place hplace
  rcases List.mem_append.1 hplace with hdir | hlast
  · obtain ⟨path, -, rfl⟩ := List.mem_map.1 hdir
    exact hlinked.dirs path
  · rw [List.mem_singleton.1 hlast]
    exact (hlinked.acked segment hsegment).synced

theorem live_eq_some : store.live writer = some task ↔
    store.writers[writer]? = some task ∧ task.failed = false := by
  simp [Store.live, Option.filter_eq_some_iff]

/-- The tree grows, and the writers are safe in it. -/
theorem Linked.grows (hlinked : Linked store) (hgrows : store.tree.Grows next.tree)
    (hwriters : ∀ task ∈ next.writers, task.Safe next.tree) (hacked : next.acked = store.acked) :
    Linked next where
  dirs path hpath := hlinked.dirs path (hgrows.dirs path hpath)
  writers := hwriters
  acked segment hsegment := hgrows.durable _ (hlinked.acked segment (hacked ▸ hsegment))

/-- The tree grows, and nothing else changes. -/
theorem Linked.inTree (hlinked : Linked store) {tree : Tree} (hgrows : store.tree.Grows tree) :
    Linked { store with tree } :=
  hlinked.grows hgrows (fun task hmem => (hlinked.writers task hmem).grows hgrows) rfl

/-- One writer goes on in a tree that grows. -/
theorem Linked.safe_set (hlinked : Linked store) {tree : Tree} (hgrows : store.tree.Grows tree)
    {later : Writer} (hlater : later.Safe tree) :
    ∀ other ∈ store.writers.set writer later, other.Safe tree := by
  intro other hmem
  rcases List.mem_or_eq_of_mem_set hmem with hold | rfl
  · exact (hlinked.writers other hold).grows hgrows
  · exact hlater

theorem Linked.live (hlinked : Linked store) (hlive : store.live writer = some task) :
    task.Sound store.tree := by
  obtain ⟨htask, hworks⟩ := live_eq_some.1 hlive
  exact hlinked.writers task (List.mem_of_getElem? htask) hworks

theorem Linked.openWith (hlinked : Linked store) {names : List String}
    (hfinds : store.tree.HasDir booksDir) (hstep : store.openWith names = some next) :
    Linked next := by
  rw [Store.openWith, Tree.createDirAll_of_hasDir hfinds] at hstep
  split at hstep
  · cases hstep
    exact hlinked.grows (Store.grows_openBooks _ names) (Store.safe_openBooks _ names) rfl
  · cases hstep

theorem Linked.openFails (hlinked : Linked store) {names : List String} {last : Option String}
    (hfinds : store.tree.HasDir booksDir) (hstep : store.openFails names last = some next) :
    Linked next := by
  rw [Store.openFails, Tree.createDirAll_of_hasDir hfinds] at hstep
  split at hstep
  · cases hstep
    have hgrows : store.tree.Grows (last.elim (Store.openBooks store.tree names).1 fun name =>
        (Store.openBooks store.tree names).1.openWithMax (booksDir ++ [name]) false) := by
      have hopened := Store.grows_openBooks store.tree names
      cases last with
      | none => exact hopened
      | some name => exact hopened.trans (Tree.grows_openWithMax _ _ false)
    exact hlinked.inTree hgrows
  · cases hstep

theorem Linked.getOrCreate (hlinked : Linked store) {book : String} {stage : Stage}
    (hfinds : store.tree.HasDir (bookPath book))
    (hstep : store.getOrCreate book stage = some next) : Linked next := by
  unfold Store.getOrCreate at hstep
  dsimp only at hstep
  rw [Tree.createDirAll_of_hasDir hfinds] at hstep
  split at hstep
  · have hgrows := store.tree.grows_openWithMax (bookPath book)
    cases stage with
    | dirCreated =>
        cases hstep
        exact hlinked
    | segmentCreated =>
        cases hstep
        exact hlinked.inTree (hgrows false)
    | done =>
        cases hstep
        refine hlinked.grows (hgrows true) (fun task hmem => ?_) rfl
        rcases List.mem_append.1 hmem with hold | hnew
        · exact (hlinked.writers task hold).grows (hgrows true)
        · rw [List.mem_singleton.1 hnew]
          exact Writer.safe_spawn store.tree book _
  · cases hstep

theorem Linked.rotate (hlinked : Linked store) {nextSeq : Int} {synced : Bool}
    (hstep : store.rotate writer nextSeq synced = some next) : Linked next := by
  obtain ⟨task, hlive, rfl⟩ := Option.map_eq_some_iff.1 hstep
  have hcreate := store.tree.grows_create task.dir nextSeq
  cases synced with
  | false =>
      refine hlinked.grows hcreate (hlinked.safe_set hcreate fun hworks => ?_) rfl
      cases hworks
  | true =>
      have hgrows := hcreate.trans (Tree.grows_fsyncDir _ task.dir)
      have hsound := hlinked.live hlive
      have hlater : (task.rotated nextSeq true).Sound
          ((store.tree.create (.segment task.dir nextSeq)).fsyncDir task.dir) := by
        refine ⟨List.mem_insert_self, fun base hbase =>
          List.mem_insert_of_mem (hsound.pending hbase), fun base hbase => ?_⟩
        rcases List.mem_insert_iff.1 hbase with rfl | hold
        · exact Tree.durable_fsyncDir (store.tree.mem_create _)
        · exact hgrows.durable _ (hsound.catalog base hold)
      exact hlinked.grows hgrows (hlinked.safe_set hgrows fun _ => hlater) rfl

theorem Linked.append (hlinked : Linked store) (hstep : store.append writer = some next) :
    Linked next := by
  obtain ⟨task, hlive, rfl⟩ := Option.map_eq_some_iff.1 hstep
  have hsound := hlinked.live hlive
  refine hlinked.grows (.refl _) (hlinked.safe_set (.refl _) fun _ => ?_) rfl
  exact { hsound with pending := List.cons_subset.2 ⟨hsound.active, hsound.pending⟩ }

/-- The segments of a batch that is answered were durable before. -/
theorem Linked.commit (hlinked : Linked store) {repeated : List Int}
    (hstep : store.commit writer repeated = some next) : Linked next := by
  obtain ⟨task, hlive, hanswers⟩ := Option.bind_eq_some_iff.1 hstep
  obtain ⟨hrepeated, hnext⟩ := Option.ite_none_right_eq_some.1 hanswers
  cases hnext
  have hsound := hlinked.live hlive
  refine ⟨hlinked.dirs, hlinked.safe_set (.refl _) fun _ => ?_, fun segment hsegment => ?_⟩
  · exact { hsound with pending := List.nil_subset _ }
  · rcases List.mem_append.1 hsegment with hnew | hold
    · obtain ⟨base, hbase, rfl⟩ := List.mem_map.1 hnew
      rcases List.mem_append.1 hbase with hpending | hagain
      · exact hsound.catalog base (hsound.pending hpending)
      · exact hsound.catalog base (hrepeated hagain)
    · exact hlinked.acked segment hold

theorem Linked.step (hlinked : Linked store) {event : Event} (hfinds : FindsDirs store event)
    (hstep : store.step event = some next) : Linked next := by
  cases event with
  | openWith names => exact hlinked.openWith hfinds hstep
  | openFails names last => exact hlinked.openFails hfinds hstep
  | getOrCreate book stage => exact hlinked.getOrCreate hfinds hstep
  | rotate writer nextSeq synced => exact hlinked.rotate hstep
  | append writer => exact hlinked.append hstep
  | commit writer repeated => exact hlinked.commit hstep
  | publish writer =>
      obtain ⟨task, -, rfl⟩ := Option.map_eq_some_iff.1 hstep
      exact hlinked.inTree (store.tree.grows_fsyncDir task.dir)
  | fail writer =>
      obtain ⟨task, -, rfl⟩ := Option.map_eq_some_iff.1 hstep
      refine hlinked.grows (.refl _) (hlinked.safe_set (.refl _) fun hworks => ?_) rfl
      cases hworks
  | close =>
      cases hstep
      exact ⟨hlinked.dirs, fun task hmem => (by cases hmem), hlinked.acked⟩

theorem Linked.fresh (entries : List Place) : Linked (.fresh entries) :=
  ⟨fun _ hmem => (by cases hmem), fun _ hmem => (by cases hmem), fun _ hmem => (by cases hmem)⟩

end Steps

/-- In every run that creates no directory, each commit is acknowledged with all
entries durable that the store created on the way to acknowledged events. -/
theorem commits_durable (entries : List Place) (events : List Event)
    (hfinds : StepsMeet Store.step FindsDirs (.fresh entries) events) :
    StepsMeet Store.step CommitsDurable (.fresh entries) events := by
  have hrun : StatesMeet Store.step AckedDurable (.fresh entries) events ∧
      StepsMeet Store.step CommitsDurable (.fresh entries) events := by
    refine invariant_run (fun _ _ _ hlinked hcond hstep => Linked.step hlinked hcond hstep)
      (fun _ hlinked => hlinked.ackedDurable) (fun store event hlinked _ => ?_)
      (.fresh entries) hfinds
    cases event with
    | commit writer repeated => exact fun next hnext => (hlinked.commit hnext).ackedDurable
    | _ => trivial
  exact hrun.2

/-! ## The first commit of a book -/

/-- A book whose directory is there is written to, in two segments, and a call is
repeated. -/
def grown : List Event :=
  [.openWith ["main"], .append 0, .commit 0 [], .rotate 0 2 true, .append 0, .commit 0 [1]]

theorem commits_durable_grown : StepsMeet Store.step CommitsDurable
    (.fresh [.dir ["books"], .dir ["books", "main"]]) grown :=
  commits_durable _ grown (by decide +kernel)

/-- A new store, and the first commit of a book in it. -/
def firstCommit : List Event :=
  [.openWith [], .getOrCreate "main" .done, .append 0] ++ [.commit 0 []]

theorem unsynced_firstCommit :
    (execSteps Store.step (.fresh []) firstCommit).map (fun store =>
      (store.acked, store.tree.unsynced)) =
    some ([(["books", "main"], 1)], [.dir ["books", "main"], .dir ["books"]]) := by
  decide +kernel

/-- The first commit of a new book is acknowledged while neither the entry of
its directory nor that of the directory of all books is durable. -/
theorem first_commit_lost :
    ¬ ∀ entries events, StepsMeet Store.step CommitsDurable (.fresh entries) events := by
  intro hall
  obtain ⟨store, hexec, hstore⟩ := Option.map_eq_some_iff.1 unsynced_firstCommit
  obtain ⟨hacked, hunsynced⟩ := Prod.mk.inj hstore
  obtain ⟨before, hbefore, hcommit⟩ := execSteps_concat.1 hexec
  have hdurable := (hall [] firstCommit).last hbefore store hcommit
  refine hdurable (["books", "main"], 1) (by rw [hacked]; exact List.mem_cons_self)
    (.dir ["books"]) (by decide) ?_
  rw [hunsynced]
  decide

end Talea.Log.Dirents
