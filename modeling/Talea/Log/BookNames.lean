import Talea.Log.JobFlow
import Talea.Log.SecondLife
import Talea.Service.Post

/-!
# Book names and their directories

A book's name is a component of the path of its directory, whatever string a
client sends.  The names that are accepted have no separator and no two dots in
a row, so a name leads to a directory of its own, except for the one that leads
to where it starts.
-/

namespace Talea.Log

open LogTaleaStore

/-! ## Where a name leads -/

/-- One component of a path: an empty one and `.` stay where they are. -/
def walk (dir : List String) (component : String) : List String :=
  if component = "" ∨ component = "." then dir
  else if component = ".." then dir.dropLast
  else dir ++ [component]

/-- A relative path, as a case-sensitive file system resolves it. -/
def resolve (dir : List String) (path : String) : List String :=
  ((path.toList.splitOn '/').map String.ofList).foldl walk dir

/-- The directory of all books, below that of the store. -/
def booksDir : List String :=
  ["books"]

/-- The directory of a book. -/
def bookPath (book : String) : List String :=
  resolve booksDir book

/-- A name that the service and the store let through. -/
def AcceptedName (name : String) : Prop :=
  (∃ book, Service.parseBook name = .ok book) ∧ validateBookName name = true

/-- A directory below that of all books, which no other book has. -/
structure OwnDirectory (name : String) : Prop where
  child : ∃ last, bookPath name = booksDir ++ [last]
  apart : ∀ other, AcceptedName other → other ≠ name → bookPath other ≠ bookPath name

/-- A name without a separator is one component. -/
theorem resolve_of_notMem {path : String} (hslash : '/' ∉ path.toList) (dir : List String) :
    resolve dir path = walk dir path := by
  rw [resolve, List.splitOn_eq_singleton hslash]
  simp

theorem bookPath_eq {name : String} (hname : validateBookName name = true) :
    bookPath name = if bookDir name = "" then booksDir else booksDir ++ [bookDir name] := by
  obtain ⟨hempty, hslash, -, hdots⟩ := of_decide_eq_true hname
  have hparent : name ≠ ".." := by
    rintro rfl
    exact hdots (by decide)
  rw [bookPath, resolve_of_notMem hslash]
  unfold walk bookDir
  by_cases hdot : name = "."
  · simp [hdot]
  · simp [hdot, hempty, hparent]

theorem bookPath_of_ne_dot {name : String} (hname : validateBookName name = true)
    (hdot : name ≠ ".") : bookPath name = booksDir ++ [name] := by
  rw [bookPath_eq hname, bookDir_of_ne_dot hdot, if_neg (of_decide_eq_true hname).1]

theorem bookPath_dot : bookPath "." = booksDir := by
  decide

/-- Exactly the name `.` leads to no directory of its own. -/
theorem ownDirectory_iff {name : String} (hname : AcceptedName name) :
    OwnDirectory name ↔ name ≠ "." := by
  constructor
  · rintro ⟨⟨last, hlast⟩, -⟩ rfl
    rw [bookPath_dot] at hlast
    exact absurd hlast (by simp)
  · intro hdot
    have hpath := bookPath_of_ne_dot hname.2 hdot
    refine ⟨⟨name, hpath⟩, fun other hother hdiffer => ?_⟩
    rw [hpath]
    by_cases hroot : other = "."
    · rw [hroot, bookPath_dot]
      simp
    · rw [bookPath_of_ne_dot hother.2 hroot]
      simpa using hdiffer

/-! ## Books that are found again -/

/-- The writer of a book is not created under the name `.`. -/
def CreatesApart (store : LogTaleaStore) : Event → Prop
  | .poll id _ => ∀ call ∈ store.calls.lookup id, call.stage.isCreating = true →
      ∀ book ∈ call.target, book ≠ "."
  | _ => True

instance (store : LogTaleaStore) : ∀ event, Decidable (CreatesApart store event)
  | .poll id _ => inferInstanceAs (Decidable (∀ call ∈ store.calls.lookup id,
      call.stage.isCreating = true → ∀ book ∈ call.target, book ≠ "."))
  | .call _ _ | .cancel _ | .take _ _ | .write _ _ | .fail _ _ _ | .answer _ | .exit _
  | .restart _ _ => isTrue trivial

/-- A book is in the map under its name, and its writer has started behind all
events of its directory. -/
def FoundAgain (store next : LogTaleaStore) (book : String) : Prop :=
  next.log (bookDir book) = store.log (bookDir book) ∧
    ∃ writer task, next.books.lookup book = some writer ∧ next.writers[writer]? = some task ∧
      StartsOn store (bookDir book) task

/-- When the store is opened again, each book with an event is found. -/
def FindsBooks (store : LogTaleaStore) : Event → Prop
  | .restart order skipped => ∀ next, store.restart order skipped = some next →
      ∀ book, AcceptedName book → store.log (bookDir book) ≠ [] → FoundAgain store next book
  | _ => True

/-- A call that looks for a writer asks for a book with a valid name. -/
def Call.Named (call : Call) : Prop :=
  match call.stage with
  | .fast | .slow | .creating => ∀ book, call.target = some book → validateBookName book = true
  | _ => True

/-- Nothing is written where the books are. -/
structure BooksApart (store : LogTaleaStore) : Prop where
  calls : ∀ id call, store.calls.lookup id = some call → call.Named
  writers : ∀ task ∈ store.writers, task.dir ≠ ""
  root : store.log "" = []

section Steps

variable {store next : LogTaleaStore} {call : Call} {id : ℕ}

theorem Call.Named.moves {moved : Call} (hnamed : call.Named) (hmove : Moves store call moved) :
    moved.Named := by
  cases hmove with
  | @go stage hstage =>
      unfold Call.Named
      cases stage <;> trivial
  | @looks book htarget hvalid =>
      intro other hother
      rw [show call.target = some other from hother] at htarget
      cases htarget
      exact hvalid
  | misses hstage =>
      unfold Call.Named at hnamed
      rw [hstage] at hnamed
      exact hnamed
  | finish => trivial
  | acquire hresult => trivial
  | refuse => exact hnamed

/-- One call goes on, and no writer is added. -/
theorem BooksApart.ofCall (hapart : BooksApart store)
    (hcalls : next.calls = store.calls.insert id call) (hnamed : call.Named)
    (hwriters : ∀ task ∈ next.writers, task.dir ≠ "") (hlog : next.log "" = store.log "") :
    BooksApart next where
  calls other otherCall hother := by
    rw [hcalls, HashMap.lookup_insert_ite] at hother
    split at hother
    · cases hother
      exact hnamed
    · exact hapart.calls other otherCall hother
  writers := hwriters
  root := hlog.trans hapart.root

theorem BooksApart.poll (hapart : BooksApart store) {io : PollIo}
    (hcreates : CreatesApart store (.poll id io)) (hpoll : store.poll id io = some next) :
    BooksApart next := by
  obtain ⟨call, hcall, hstep⟩ := poll_cases hpoll
  have hnamed := hapart.calls id call hcall
  cases hstep with
  | moves hfrom hmove =>
      exact hapart.ofCall rfl (hnamed.moves hmove) hapart.writers rfl
  | closes hop hfrom => exact hapart.ofCall rfl trivial hapart.writers rfl
  | locksRegistry hop hstage hfree hnew => exact hapart.ofCall rfl trivial hapart.writers rfl
  | locksBooks hstage hfree htarget hmiss =>
      unfold Call.Named at hnamed
      rw [hstage] at hnamed
      exact hapart.ofCall rfl hnamed hapart.writers rfl
  | @spawns book hstage htarget =>
      refine hapart.ofCall rfl trivial (fun task hmem => ?_) (log_spawnBook book "")
      unfold Call.Named at hnamed
      rw [hstage] at hnamed
      have hdot := hcreates call hcall (by rw [hstage]; rfl) book htarget
      rcases List.mem_append.1 hmem with hold | hnew
      · exact hapart.writers task hold
      · rw [List.mem_singleton.1 hnew]
        change bookDir book ≠ ""
        rw [bookDir_of_ne_dot hdot]
        exact (of_decide_eq_true (hnamed book htarget)).1
  | spawnFails hstage => exact hapart.ofCall rfl trivial hapart.writers rfl
  | submits hstage hwriter htarget =>
      refine hapart.ofCall rfl ?_ hapart.writers rfl
      unfold Call.Named
      dsimp only
      rw [hstage]
      trivial
  | returns hstage hlast =>
      unfold LogTaleaStore.returns
      dsimp only
      split
      · exact hapart.ofCall rfl trivial hapart.writers rfl
      · exact hapart.ofCall rfl trivial hapart.writers rfl
  | drains hstage hfree hnodup hkeys => exact hapart.ofCall rfl trivial hapart.writers rfl
  | joins hstage => exact hapart.ofCall rfl trivial hapart.writers rfl
  | unlocks hstage => exact hapart.ofCall rfl trivial hapart.writers rfl

/-- A writer goes on in its directory. -/
theorem BooksApart.ofWriters (hapart : BooksApart store) (hcalls : next.calls = store.calls)
    {writer : ℕ} {task later : WriterTask} (hlive : store.live writer = some task)
    (hwriters : next.writers = store.writers.set writer later) (hdir : later.dir = task.dir)
    {wires : List WireEvent}
    (hlog : ∀ dir, next.log dir =
      if dir = task.dir then store.log dir ++ wires else store.log dir) :
    BooksApart next := by
  obtain ⟨htask, -⟩ := live_eq_some.1 hlive
  have hnamed := hapart.writers task (List.mem_of_getElem? htask)
  refine ⟨hcalls ▸ hapart.calls, fun other hmem => ?_, ?_⟩
  · rw [hwriters] at hmem
    rcases List.mem_or_eq_of_mem_set hmem with hold | rfl
    · exact hapart.writers other hold
    · rw [hdir]
      exact hnamed
  · rw [hlog, if_neg fun heq => hnamed heq.symm]
    exact hapart.root

/-- A writer that appends nothing. -/
theorem log_quiet (store : LogTaleaStore) (dir other : String) :
    store.log other = if other = dir then store.log other ++ [] else store.log other := by
  rw [List.append_nil, ite_self]

theorem BooksApart.step (hapart : BooksApart store) {event : Event}
    (hcreates : CreatesApart store event) (hstep : store.step event = some next) :
    BooksApart next := by
  cases event with
  | call id op =>
      obtain ⟨-, rfl⟩ := call_cases hstep
      exact hapart.ofCall rfl trivial hapart.writers rfl
  | poll id io => exact hapart.poll hcreates hstep
  | cancel id =>
      obtain ⟨call, -, rfl⟩ := cancel_cases hstep
      exact hapart.ofCall rfl trivial hapart.writers rfl
  | take writer count =>
      obtain ⟨rfl, -⟩ := take_cases hstep
      exact ⟨hapart.calls, hapart.writers, hapart.root⟩
  | write writer io =>
      obtain ⟨task, hlive, -, rfl | ⟨batch, state, -, -, rfl⟩⟩ := write_cases hstep
      · exact hapart.ofWriters rfl hlive rfl rfl (log_append task.dir · [])
      · exact hapart.ofWriters rfl hlive rfl rfl (log_append task.dir · batch.wires)
  | fail writer io kept =>
      obtain ⟨task, wires, hlive, -, rfl, -⟩ := fail_cases hstep
      exact hapart.ofWriters rfl hlive rfl rfl (log_append task.dir · wires)
  | answer writer =>
      obtain ⟨task, hlive, rfl⟩ := answer_cases hstep
      exact hapart.ofWriters rfl hlive rfl rfl (log_quiet store task.dir)
  | exit writer =>
      obtain ⟨task, hlive, -, -, rfl⟩ := exit_cases hstep
      exact hapart.ofWriters rfl hlive rfl rfl (log_quiet store task.dir)
  | restart order skipped =>
      obtain ⟨tasks, books, -, hkeys, rfl, htasks, -, -⟩ := restart_cases hstep
      refine ⟨fun id call hcall => ?_, fun task hmem => ?_, hapart.root⟩
      · simp [onLogs] at hcall
      · have hin : task.dir ∈ order := by
          rw [← map_dir_of_startsOn htasks]
          exact List.mem_map_of_mem hmem
        rw [← List.mem_toFinset, hkeys, Finset.mem_erase] at hin
        exact hin.1

/-- With nothing where the books are, every book with events is found. -/
theorem BooksApart.findsBooks (hapart : BooksApart store) (event : Event) :
    FindsBooks store event := by
  cases event with
  | restart order skipped =>
      intro next hrestart book hname hevents
      have hdot : book ≠ "." := by
        rintro rfl
        exact hevents hapart.root
      have hdir := bookDir_of_ne_dot hdot
      obtain ⟨tasks, books, hnodup, hkeys, rfl, htasks, hfound, hbooks⟩ := restart_cases hrestart
      rw [hdir] at hevents
      rw [FoundAgain, hdir]
      have hin : book ∈ order := by
        rw [← List.mem_toFinset, hkeys, Finset.mem_erase, Finmap.mem_keys]
        refine ⟨(of_decide_eq_true hname.2).1, ?_⟩
        by_contra habsent
        refine hevents ?_
        rw [LogTaleaStore.log, Finmap.lookup_eq_none.2 habsent]
        rfl
      obtain ⟨writer, hwriter⟩ := Finmap.mem_iff.1 (hfound book hin)
      obtain ⟨task, htask, hstarts⟩ := getElem?_of_forall₂ htasks (hbooks book writer hwriter)
      exact ⟨rfl, writer, task, hwriter, htask, hstarts⟩
  | _ => trivial

theorem BooksApart.fresh : BooksApart fresh where
  calls id call hcall := by simp [LogTaleaStore.fresh, onLogs] at hcall
  writers task hmem := by simp [LogTaleaStore.fresh, onLogs] at hmem
  root := rfl

end Steps

/-- An accepted name has a directory of its own exactly when it is not `.`; and
in every run that does not create a book of this name, opening the store again
finds each book with events, under its name and with all of them. -/
theorem books_found_again (name : String) (hname : AcceptedName name) (events : List Event)
    (hcreates : StepsMeet step CreatesApart fresh events) :
    (OwnDirectory name ↔ name ≠ ".") ∧ StepsMeet step FindsBooks fresh events := by
  have hrun : StatesMeet step (fun _ => True) fresh events ∧
      StepsMeet step FindsBooks fresh events :=
    invariant_run (fun _ _ _ hapart hcond hstep => BooksApart.step hapart hcond hstep)
      (fun _ _ => trivial) (fun _ event hapart _ => hapart.findsBooks event) .fresh hcreates
  exact ⟨ownDirectory_iff hname, hrun.2⟩

/-! ## The name `.` -/

namespace DotBook

def dollar : AssetDef :=
  ⟨⟨"USD"⟩, .fiat, 2, "dollar"⟩

/-- A dollar is registered, and an account opened for it in a book. -/
def opens (book : String) : List Event :=
  .call 0 (.registerAsset dollar) :: polls 0 9 ++ serves 0 ++ polls 0 2 ++
    .call 1 (.openAccount ⟨⟨⟨book⟩, "cash"⟩, dollar.id, .asset⟩ ⟨none, none⟩) :: polls 1 8 ++
    serves 1 ++ polls 1 2

/-- The store is opened again behind it. -/
def reopens : List Event :=
  opens "main" ++ [.restart ["_system", "main"] fun _ => 0]

theorem accepted : AcceptedName "." :=
  ⟨⟨⟨"."⟩, rfl⟩, by decide⟩

theorem creates_reopens : StepsMeet step CreatesApart fresh reopens := by
  decide +kernel

/-- The account is in the log, and no book `.` is in the map of the store that
is opened on it. -/
theorem opens_dot : (execSteps step fresh (opens ".")).bind (fun store =>
    (store.restart ["_system"] fun _ => 0).map fun next =>
      ((store.log (bookDir ".")).length, next.books.lookup ".")) = some (1, none) := by
  decide +kernel

end DotBook

theorem books_found_again_main :
    (OwnDirectory "main" ↔ "main" ≠ ".") ∧ StepsMeet step FindsBooks fresh DotBook.reopens :=
  books_found_again "main" ⟨⟨⟨"main"⟩, rfl⟩, by decide⟩ DotBook.reopens DotBook.creates_reopens

/-- The name `.` is accepted, its directory is that of all books, and what is
written there is not found again. -/
theorem dot_book_lost :
    (¬ ∀ name, AcceptedName name → OwnDirectory name) ∧
      ¬ ∀ events, StepsMeet step FindsBooks fresh events := by
  constructor
  · intro hall
    exact (ownDirectory_iff DotBook.accepted).1 (hall "." DotBook.accepted) rfl
  · intro hall
    obtain ⟨store, hexec, hstore⟩ := Option.bind_eq_some_iff.1 DotBook.opens_dot
    obtain ⟨next, hnext, hfound⟩ := Option.map_eq_some_iff.1 hstore
    obtain ⟨hlength, hlookup⟩ := Prod.mk.inj hfound
    have hfinds := (hall (DotBook.opens "." ++ [.restart ["_system"] fun _ => 0])).last hexec
    have hevents : store.log (bookDir ".") ≠ [] := by
      intro hnone
      rw [hnone] at hlength
      cases hlength
    obtain ⟨-, writer, task, hwriter, -⟩ := hfinds next hnext "." DotBook.accepted hevents
    rw [hlookup] at hwriter
    cases hwriter

end Talea.Log
