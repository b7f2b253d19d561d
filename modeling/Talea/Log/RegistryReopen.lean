import Talea.Lib.Steps
import Talea.Log.AssetRegistry
import Talea.Log.SoloStore
import Talea.Log.BinaryRuntime

/-!
# The registry of a store that is opened again

The registry is filled from the part of the logs that is replayed when the store
is opened, and a book is replayed from its newest snapshot on.  As long as no
snapshot of the system book is loaded, the registry has all assets of its log,
over any number of openings and whatever the operating system does to the calls
between them.
-/

namespace Talea.Log

open LogTaleaStore

/-! ## A store and its openings -/

namespace SoloStore

/-- A store on an empty directory. -/
def fresh (opts : LogStoreOptions) : SoloStore :=
  ⟨opts, false, ∅, ∅⟩

/-- The writer of a book, without creating the book. -/
def existingBook (store : SoloStore) (book : String) : Except StoreError (Option Run) :=
  if store.shutDown then .error (.io "store has been shut down")
  else if validateBookName book then .ok (store.books.lookup book)
  else .error (invalidBookName book)

/-- A background task writes its snapshot. -/
def land (store : SoloStore) (book : String) (task : ℕ) (io : SnapIo) : SoloStore :=
  match store.books.lookup book with
  | none => store
  | some run => { store with books := store.books.insert book (run.land task io) }

variable (rt : Runtime)

/-- Ask the writer of a book for a snapshot, and wait for it. -/
def snapshotNow (store : SoloStore) (book : String) (io : CallIo) :
    SoloStore × Except StoreError Unit :=
  match store.existingBook book with
  | .error err => (store, .error err)
  | .ok none => (store, .error (.io s!"book {book.quote} not found for snapshot_now"))
  | .ok (some _) => store.call rt book .snapshot "book writer gone during snapshot_now" io

/-- Replay the directory of one book into the store that is being opened. -/
def openNext (store : SoloStore) (opts : LogStoreOptions) (io : String → SpillIo)
    (next : SoloStore) (book : String) : Option SoloStore :=
  (store.books.lookup book).bind fun run =>
    match openBook rt opts (io book) run.status.disk with
    | .error _ => none
    | .ok opened => some
        { next with
          registry := register next.registry opened.registered
          books := next.books.insert book (run.reopen rt opts (io book)) }

/-- Open the store again: `order` is the order in which the directories of the
books are listed. -/
def reopen (store : SoloStore) (order : List String) (opts : LogStoreOptions)
    (io : String → SpillIo) : Option SoloStore :=
  order.foldlM (store.openNext rt opts io) (fresh opts)

/-- The directories of the books, in some order. -/
def Lists (store : SoloStore) (order : List String) : Prop :=
  order.Nodup ∧ order.toFinset = store.books.keys

instance (store : SoloStore) (order : List String) : Decidable (store.Lists order) :=
  inferInstanceAs (Decidable (order.Nodup ∧ order.toFinset = store.books.keys))

end SoloStore

/-- What happens to a store and its directory. -/
inductive StoreEvent
  | registerAsset (asset : AssetDef) (io : CallIo)
  | openAccount (account : AccountDef) (cfg : AccountCfg) (io : CallIo)
  | snapshotNow (book : String) (io : CallIo)
  | land (book : String) (task : ℕ) (io : SnapIo)
  | shutdown
  | reopen (order : List String) (opts : LogStoreOptions) (io : String → SpillIo)

namespace SoloStore

variable (rt : Runtime)

/-- One event.  No account is opened in a book named `.`, which would share the
directory of all books. -/
def step (store : SoloStore) : StoreEvent → Option SoloStore
  | .registerAsset asset io => some (store.registerAsset rt asset io).1
  | .openAccount account cfg io =>
      if account.id.book.name = "." then none else some (store.openAccount rt account cfg io).1
  | .snapshotNow book io => some (store.snapshotNow rt book io).1
  | .land book task io => some (store.land book task io)
  | .shutdown => some { store with shutDown := true }
  | .reopen order opts io => if store.Lists order then store.reopen rt order opts io else none

/-- The assets that the log of the system book registers. -/
def registered (store : SoloStore) : List AssetDef :=
  registrations (store.events rt systemBook.name)

/-- The registry holds the assets of the log: an account can be opened for each
of them, and another asset under the id of one of them is refused and leaves
everything as it is. -/
structure RegistryServes (store : SoloStore) : Prop where
  exact : ∀ id asset, store.asset id = some asset ↔ asset ∈ store.registered rt ∧ asset.id = id
  usable : ∀ (account : AccountDef) cfg io,
    account.asset ∈ (store.registered rt).map AssetDef.id →
      (store.openAccount rt account cfg io).2 ≠ .error (.unknownAsset account.asset)
  conflict : ∀ asset ∈ store.registered rt, ∀ other io, other.id = asset.id → other ≠ asset →
    store.registerAsset rt other io =
      (store, .error (.alreadyExists s!"asset {asset.id.id}"))

/-- When the store is opened again, this goes well, and the registry is that of
the log. -/
def ReopensServing (store : SoloStore) : StoreEvent → Prop
  | .reopen order opts io => store.Lists order →
      ∃ next, store.reopen rt order opts io = some next ∧ next.RegistryServes rt
  | _ => True

/-- When the store is opened again, no snapshot of the system book is loaded. -/
def WholeReplay (store : SoloStore) : StoreEvent → Prop
  | .reopen _ _ _ => ∀ run ∈ store.books.lookup systemBook.name,
      (loadLatest run.status.disk.snaps).isNone = true
  | _ => True

instance (store : SoloStore) : ∀ event, Decidable (store.WholeReplay event)
  | .reopen _ _ _ => inferInstanceAs (Decidable (∀ run ∈ store.books.lookup systemBook.name,
      (loadLatest run.status.disk.snaps).isNone = true))
  | .registerAsset _ _ | .openAccount _ _ _ | .snapshotNow _ _ | .land _ _ _ | .shutdown =>
      isTrue trivial

end SoloStore

variable {rt : Runtime}

/-! ## What a job registers -/

section Submit

variable {run next : Run} {job : Job} {reply : Except StoreError (Option Answer)} {io : CallIo}

theorem registrations_stagedWires (rt : Runtime) (writer : Writer) (job : Job) (io : CallIo) :
    registrations (writer.stagedWires rt (io.input job)) <+: job.asset.toList := by
  unfold Writer.stagedWires
  split
  · next batch hbatch =>
      rw [registrations_classify hbatch]
      cases hasset : job.asset <;> simp [CallIo.input, hasset]
  · exact List.nil_prefix

theorem registrations_take (wires : List WireEvent) (count : ℕ) :
    registrations (wires.take count) <+: registrations wires :=
  (List.take_prefix count wires).filterMap _

/-- A job registers its asset or nothing, and nothing behind the end of the
writer, which stays at its end. -/
theorem RunInv.submit_registers (hinv : RunInv rt run)
    (hsubmit : run.submit rt job io = (next, reply)) :
    RunInv rt next ∧
      (run.stopped = true → next.stopped = true ∧ next.events rt = run.events rt) ∧
      ∃ more, more <+: job.asset.toList ∧
        registrations (next.events rt) = registrations (run.events rt) ++ more := by
  obtain ⟨hlog, -, hstopped⟩ := run.lands_same rt io.landed
  have hlanded := hinv.lands io.landed
  have hevents : (run.lands io.landed).events rt = run.events rt :=
    congrArg (List.map Prod.fst) hlog
  rcases Run.submit_cases hsubmit with ⟨hgone, rfl, -⟩ | ⟨writer, hlive, hcases⟩
  · exact ⟨hlanded, fun _ => ⟨hgone, hevents⟩, [], List.nil_prefix,
      by rw [hevents, List.append_nil]⟩
  have hwriter : WriterInv rt writer (run.lands io.landed).boundaries := by
    have hbook := hlanded.book
    rwa [hlive] at hbook
  have hbefore : (logEvents rt writer.segments.files).map Prod.fst = run.events rt := by
    rw [← hevents, Run.events, Run.log, hlive]
    rfl
  have hrunning : ¬ run.stopped = true := by
    rw [← hstopped, Run.stopped, hlive]
    exact Bool.false_ne_true
  -- what is on disk behind the job is the log and the first of its events
  have hgrown : ∀ {wires : List WireEvent} (count : ℕ),
      wires = run.events rt ++ (writer.stagedWires rt (io.input job)).take count →
      ∃ more, more <+: job.asset.toList ∧
        registrations wires = registrations (run.events rt) ++ more := by
    rintro wires count rfl
    refine ⟨_, ?_, registrations_append _ _⟩
    exact (registrations_take _ count).trans (registrations_stagedWires rt writer job io)
  have hkilled : ∀ {left : SegmentSet}, Killed rt writer (run.lands io.landed).boundaries left →
      (∃ count, (logEvents rt left.files).map Prod.fst =
        (logEvents rt writer.segments.files).map Prod.fst ++
          (writer.stagedWires rt (io.input job)).take count) →
      RunInv rt ((run.lands io.landed).stop writer left) ∧ ∃ more, more <+: job.asset.toList ∧
        registrations (((run.lands io.landed).stop writer left).events rt) =
          registrations (run.events rt) ++ more := by
    rintro left hleft ⟨count, hcount⟩
    rw [hbefore] at hcount
    exact ⟨(hlanded.stop hlive hleft).1, hgrown count hcount⟩
  rcases hcases with ⟨left, hleft, rfl, -⟩ | ⟨left, hleft, rfl, -⟩ | ⟨-, result, hdone, rfl, -⟩
  · have hmem : left ∈ writer.batchTrace rt allReadable (io.input job) := by
      unfold Writer.interruption at hleft
      split at hleft
      · cases hleft
      · obtain ⟨point, -, hpoint⟩ := Option.bind_eq_some_iff.1 hleft
        exact List.mem_of_getElem? hpoint
    obtain ⟨hnext, hmore⟩ := hkilled (hwriter.batchTrace hmem) (hwriter.batchTrace_wires hmem)
    exact ⟨hnext, fun hgone => absurd hgone hrunning, hmore⟩
  · have hspec := hwriter.batch (io.input job)
    have hwires := hwriter.batch_wires (io.input job)
    rw [hleft] at hspec hwires
    obtain ⟨hnext, hmore⟩ := hkilled hspec hwires
    exact ⟨hnext, fun hgone => absurd hgone hrunning, hmore⟩
  · have hwires := hwriter.batch_wires (io.input job)
    rw [hdone] at hwires
    dsimp only at hwires
    refine ⟨(hlanded.batch (io.input job)).1, fun hgone => absurd hgone hrunning,
      hgrown (writer.stagedWires rt (io.input job)).length ?_⟩
    rw [List.take_length, ← hbefore, ← hwires, Run.events, Run.log, Run.status_batch hlive hdone]
    rfl

/-- A writer that is gone is the only reason for which no job can be sent. -/
theorem Run.submit_error {err : StoreError} (hsubmit : run.submit rt job io = (next, .error err)) :
    err = .io "book writer gone" := by
  rcases Run.submit_cases hsubmit with ⟨-, -, herr⟩ | ⟨writer, -, hcases⟩
  · exact Except.error.inj herr
  · rcases hcases with ⟨left, -, -, hreply⟩ | ⟨left, -, -, hreply⟩ | ⟨-, result, -, -, hreply⟩
    all_goals cases hreply

end Submit

/-- The only error of an open that reaches the writer. -/
theorem SetUp.error_of_openAccount {accounts after : HashMap String AccountState}
    {account : AccountDef} {cfg : AccountCfg} {events : List LedgerEvent} {err : StoreError}
    (hsetUp : SetUp accounts (.openAccount account cfg) after events (.error err)) :
    err = .alreadyExists s!"account {account.id.toKey}" := by
  cases hsetUp
  rfl

namespace SoloStore

section Call

variable {store next : SoloStore} {book : String} {job : Job} {gone : String} {io : CallIo}
  {result : Except StoreError Unit}

/-- The same for a call. -/
theorem Inv.call_registers (hinv : store.Inv rt)
    (hcall : store.call rt book job gone io = (next, result)) :
    next.Inv rt ∧ store.Touches book next ∧
      (store.Stopped book → next.Stopped book ∧ next.events rt book = store.events rt book) ∧
      ∃ more, more <+: job.asset.toList ∧
        registrations (next.events rt book) = registrations (store.events rt book) ++ more := by
  unfold SoloStore.call at hcall
  rcases hfind : store.bookWriter rt book io with ⟨mid, err | run⟩
  · rw [hfind] at hcall
    cases hcall
    obtain ⟨hmid, ⟨rfl, -⟩ | ⟨run, hrun, -⟩⟩ := hinv.bookWriter hfind
    · exact ⟨hinv, .refl _ _, fun hgone => ⟨hgone, rfl⟩, [], List.nil_prefix,
        (List.append_nil _).symm⟩
    · cases hrun
  · obtain ⟨hmid, ⟨-, err, herr⟩ | ⟨found, hrun, hfound⟩⟩ := hinv.bookWriter hfind
    · cases herr
    cases hrun
    rw [hfind] at hcall
    dsimp only at hcall
    rcases hsubmit : run.submit rt job io with ⟨after, reply⟩
    rw [hsubmit] at hcall
    cases hcall
    obtain ⟨hafter, hgone, more, hmore, hregistered⟩ := hfound.inv.submit_registers hsubmit
    have hlookup : (mid.books.insert book after).lookup book = some after :=
      Finmap.lookup_insert _
    have hevents : SoloStore.events rt { mid with books := mid.books.insert book after } book =
        after.events rt := by
      rw [SoloStore.events, hlookup]
    refine ⟨hmid.insert hafter, hfound.touches.trans (.insert mid book after), fun hstopped => ?_,
      more, hmore, by rw [hevents, hregistered, hfound.events]⟩
    obtain ⟨hstill, hsame⟩ := hgone (hfound.stopped hstopped)
    exact ⟨⟨after, hlookup, hstill⟩, by rw [hevents, hsame, hfound.events]⟩

theorem bookWriter_ne_unknownAsset (rt : Runtime) (store : SoloStore) (book : String) (io : CallIo)
    (id : AssetId) :
    (store.bookWriter rt book io).2 ≠ .error (.unknownAsset id) := by
  unfold SoloStore.bookWriter invalidBookName
  repeat' split
  all_goals simp

/-- An account is never refused for its asset once its job is on the way. -/
theorem Inv.call_ne_unknownAsset (hinv : store.Inv rt) {account : AccountDef} {cfg : AccountCfg}
    (id : AssetId) :
    (store.call rt book (.openAccount account cfg) gone io).2 ≠ .error (.unknownAsset id) := by
  have hfound := bookWriter_ne_unknownAsset rt store book io id
  unfold SoloStore.call
  rcases hfind : store.bookWriter rt book io with ⟨mid, err | run⟩
  · rw [hfind] at hfound
    intro herr
    exact hfound (congrArg Except.error (Except.error.inj herr))
  · obtain ⟨-, ⟨-, err, herr⟩ | ⟨found, hrun, hfound⟩⟩ := hinv.bookWriter hfind
    · cases herr
    cases hrun
    rcases hsubmit : run.submit rt (.openAccount account cfg) io with ⟨after, reply⟩
    dsimp only
    rw [hsubmit]
    dsimp only
    obtain ⟨-, -, ⟨-, hnone⟩ | hanswered⟩ := hfound.inv.submit rfl hsubmit
    · rcases reply with err | _ | answer
      · rw [Run.submit_error hsubmit]
        simp
      · simp
      · exact absurd rfl (hnone answer)
    · obtain ⟨events, outcome, rfl, hsetUp, -⟩ := hanswered.setUp
      rintro rfl
      cases hsetUp.error_of_openAccount

end Call

end SoloStore

/-! ## One event -/

/-- The asset that an event registers. -/
def LedgerEvent.asset : LedgerEvent → Option AssetDef
  | .assetRegistered asset => some asset
  | _ => none

theorem registrations_eq_filterMap (wires : List WireEvent) :
    registrations wires = (wires.map WireEvent.event).filterMap LedgerEvent.asset := by
  rw [List.filterMap_map]
  rfl

/-- The log of the system book has an event for each asset, no other book has
one, and while the system book has a writer the registry is that of its log. -/
structure RegistryInv (rt : Runtime) (store : SoloStore) : Prop where
  inv : store.Inv rt
  elsewhere : ∀ book, book ≠ systemBook.name → registrations (store.events rt book) = []
  once : ((store.registered rt).map AssetDef.id).Nodup
  current : ¬ store.Stopped systemBook.name → store.registry = register ∅ (store.registered rt)

section Steps

variable {store next : SoloStore} {io : CallIo}

theorem SoloStore.Touches.events {book other : String} (htouches : store.Touches book next)
    (hother : other ≠ book) : next.events rt other = store.events rt other := by
  rw [SoloStore.events, htouches.others other hother]
  rfl

/-- A step that registers nothing and does not give the system book a writer. -/
theorem RegistryInv.quiet (hinv : RegistryInv rt store) (hnext : next.Inv rt)
    (hregistrations : ∀ book,
      registrations (next.events rt book) = registrations (store.events rt book))
    (hregistry : next.registry = store.registry)
    (hstopped : store.Stopped systemBook.name → next.Stopped systemBook.name) :
    RegistryInv rt next := by
  have hregistered : next.registered rt = store.registered rt := hregistrations _
  constructor
  · exact hnext
  · exact fun book hbook => (hregistrations book).trans (hinv.elsewhere book hbook)
  · rw [hregistered]
    exact hinv.once
  · intro hlive
    rw [hregistry, hregistered]
    exact hinv.current fun hgone => hlive (hstopped hgone)

/-- A call on the writer of a book that registers nothing. -/
theorem RegistryInv.quietCall (hinv : RegistryInv rt store) {book : String} {job : Job}
    {gone : String} (hjob : job.asset = none) :
    RegistryInv rt (store.call rt book job gone io).1 := by
  rcases hcall : store.call rt book job gone io with ⟨next, result⟩
  obtain ⟨hnext, htouches, hgone, more, hmore, hregistered⟩ := hinv.inv.call_registers hcall
  rw [hjob, Option.toList_none, List.prefix_nil] at hmore
  rw [hmore, List.append_nil] at hregistered
  refine hinv.quiet hnext (fun other => ?_) htouches.registry fun hstopped => ?_
  · by_cases hother : other = book
    · rw [hother, hregistered]
    · rw [htouches.events hother]
  · exact hstopped.keeps htouches fun hbook => (hgone hbook).1

theorem RegistryInv.snapshotNow (hinv : RegistryInv rt store) (book : String) (io : CallIo) :
    RegistryInv rt (store.snapshotNow rt book io).1 := by
  unfold SoloStore.snapshotNow
  split
  · exact hinv
  · exact hinv
  · exact hinv.quietCall rfl

theorem RegistryInv.openAccount (hinv : RegistryInv rt store) (account : AccountDef)
    (cfg : AccountCfg) (io : CallIo) : RegistryInv rt (store.openAccount rt account cfg io).1 := by
  unfold SoloStore.openAccount
  split
  · exact hinv
  · split
    · exact hinv
    · exact hinv.quietCall rfl

theorem RegistryInv.land (hinv : RegistryInv rt store) (book : String) (task : ℕ) (io : SnapIo) :
    RegistryInv rt (store.land book task io) := by
  unfold SoloStore.land
  cases hlookup : store.books.lookup book with
  | none => exact hinv
  | some run =>
      dsimp only
      obtain ⟨hlog, -, hstopped⟩ := run.land_same rt task io
      have htouches := SoloStore.Touches.insert store book (run.land task io)
      have hfound : ({ store with books := store.books.insert book (run.land task io) } :
          SoloStore).books.lookup book = some (run.land task io) := Finmap.lookup_insert _
      refine hinv.quiet (hinv.inv.insert ((hinv.inv book run hlookup).land task io).1)
        (fun other => ?_) rfl fun hgone => hgone.keeps htouches ?_
      · by_cases hother : other = book
        · rw [hother, SoloStore.events, SoloStore.events, hfound, hlookup]
          exact congrArg registrations (congrArg (List.map Prod.fst) hlog)
        · rw [htouches.events hother]
      · rintro ⟨found, hrun, hgone⟩
        obtain rfl := Option.some.inj (hlookup.symm.trans hrun)
        exact ⟨_, hfound, hstopped.trans hgone⟩

/-- An asset that the registry does not have is not in the log, unless the
writer of the system book is gone. -/
theorem RegistryInv.notMem (hinv : RegistryInv rt store) {id : AssetId}
    (hlive : ¬ store.Stopped systemBook.name) (hnew : store.asset id = none) :
    id ∉ (store.registered rt).map AssetDef.id := by
  rw [SoloStore.asset, hinv.current hlive] at hnew
  exact lookup_register_eq_none.1 hnew

/-- A registration reaches the log before the registry. -/
theorem RegistryInv.registerAsset (hinv : RegistryInv rt store) (asset : AssetDef) (io : CallIo) :
    RegistryInv rt (store.registerAsset rt asset io).1 := by
  unfold SoloStore.registerAsset
  split
  · exact hinv
  cases hnew : store.asset asset.id with
  | some existing => exact hinv
  | none =>
  dsimp only
  rcases hcall : store.call rt systemBook.name (.registerAsset asset)
    "book writer gone during register_asset" io with ⟨next, result⟩
  obtain ⟨hnext, htouches, hgone, more, hmore, hregistered⟩ := hinv.inv.call_registers hcall
  obtain ⟨-, -, -, hcases⟩ := hinv.inv.call rfl hcall
  have helsewhere : ∀ book, book ≠ systemBook.name → registrations (next.events rt book) = [] :=
    fun book hbook => by rw [htouches.events hbook, hinv.elsewhere book hbook]
  have honce : ((next.registered rt).map AssetDef.id).Nodup := by
    by_cases hstopped : store.Stopped systemBook.name
    · rw [SoloStore.registered, (hgone hstopped).2]
      exact hinv.once
    · have hsub : (next.registered rt).map AssetDef.id <+:
          (store.registered rt).map AssetDef.id ++ [asset.id] := by
        rw [SoloStore.registered, hregistered, List.map_append]
        exact (List.prefix_append_right_inj _).2 (hmore.map AssetDef.id)
      refine List.Nodup.sublist hsub.sublist (List.nodup_append.2
        ⟨hinv.once, List.nodup_singleton _, fun id hid last hlast => ?_⟩)
      rw [List.mem_singleton.1 hlast]
      rintro rfl
      exact hinv.notMem hstopped hnew hid
  rcases hcases with ⟨⟨err, rfl⟩, rfl | hstopped⟩ | hanswered
  · exact hinv
  · exact ⟨hnext, helsewhere, honce, fun hlive => absurd hstopped hlive⟩
  · obtain ⟨events, hsetUp, hledger⟩ := hanswered.setUp
    obtain ⟨-, rfl, rfl⟩ := hsetUp.of_registerAsset
    have hlog : next.registered rt = store.registered rt ++ [asset] := by
      rw [SoloStore.registered, registrations_eq_filterMap]
      change List.filterMap LedgerEvent.asset (next.ledgerEvents rt systemBook.name) = _
      rw [hledger, List.filterMap_append, SoloStore.ledgerEvents, ← registrations_eq_filterMap]
      rfl
    refine ⟨hnext, helsewhere, honce, fun _ => ?_⟩
    show next.registry.insert asset.id asset = _
    change _ = register ∅ (next.registered rt)
    rw [hlog, register_append, ← hinv.current hanswered.before, htouches.registry]
    rfl

end Steps

/-! ## Opening again -/

section Reopen

variable {store next : SoloStore} {opts : LogStoreOptions} {io : String → SpillIo}

/-- What is replayed into the registry from a book: all its registrations, or
those behind a snapshot. -/
theorem registered_of_openBook {disk : Disk} {saved : List BookState} {opened : Opened}
    (hspec : opened.Spec rt disk saved) :
    ∃ count, opened.registered =
        registrations (((logEvents rt disk.segments).map Prod.fst).drop count) ∧
      ((loadLatest disk.snaps).isNone = true → count = 0) := by
  obtain ⟨count, hfrom, hregistered⟩ := hspec.registered
  refine ⟨count, ?_, fun hnone => ?_⟩
  · rw [hregistered, ← List.map_drop, registrations, List.filterMap_map]
    rfl
  · rw [replayStart, Option.isNone_iff_eq_none.1 hnone] at hfrom
    have hone : (1 : Int) = count + 1 := hfrom
    omega

/-- The book that is opened has its log and a writer. -/
theorem RunInv.reopen_live {run : Run} (hinv : RunInv rt run) (opts : LogStoreOptions)
    (io : SpillIo) :
    ∃ opened, openBook rt opts io run.status.disk = .ok opened ∧
      opened.Spec rt run.status.disk run.boundaries ∧
      (run.reopen rt opts io).events rt = run.events rt ∧
      (run.reopen rt opts io).stopped = false := by
  obtain ⟨opened, hopen, hspec⟩ := hinv.book.diskInv.openBook opts io
  refine ⟨opened, hopen, hspec, ?_, ?_⟩
  · unfold Run.reopen
    rw [hopen]
    exact congrArg (List.map Prod.fst) hspec.log_eq
  · unfold Run.reopen
    rw [hopen]
    rfl

/-- A store that is being opened, with the books of `order` behind it. -/
structure Opening (rt : Runtime) (store : SoloStore) (opts : LogStoreOptions)
    (io : String → SpillIo) (order : List String) (next : SoloStore) : Prop where
  shutDown : next.shutDown = false
  books : ∀ book, next.books.lookup book =
    if book ∈ order then (store.books.lookup book).map fun run => run.reopen rt opts (io book)
    else none
  registry : next.registry =
    if systemBook.name ∈ order then register ∅ (store.registered rt) else ∅

/-- One book more. -/
theorem Opening.openNext {order : List String} {book : String} {run : Run}
    (hopening : Opening rt store opts io order next) (hinv : RegistryInv rt store)
    (hlookup : store.books.lookup book = some run) (hfresh : book ∉ order)
    (hwhole : book = systemBook.name → (loadLatest run.status.disk.snaps).isNone = true) :
    ∃ later, store.openNext rt opts io next book = some later ∧
      Opening rt store opts io (order ++ [book]) later := by
  obtain ⟨opened, hopen, hspec, -, -⟩ := (hinv.inv book run hlookup).reopen_live opts (io book)
  have hnext : store.openNext rt opts io next book = some
      { next with
        registry := register next.registry opened.registered
        books := next.books.insert book (run.reopen rt opts (io book)) } := by
    rw [SoloStore.openNext, hlookup, Option.bind_some, hopen]
  refine ⟨_, hnext, hopening.shutDown, fun other => ?_, ?_⟩
  · show (next.books.insert book (run.reopen rt opts (io book))).lookup other = _
    rw [HashMap.lookup_insert_ite, hopening.books]
    simp only [List.mem_append, List.mem_singleton]
    by_cases hother : other = book
    · rw [if_pos hother, if_pos (Or.inr hother), hother, hlookup]
      rfl
    · rw [if_neg hother]
      simp only [hother, or_false]
  · obtain ⟨count, hregistered, hnone⟩ := registered_of_openBook hspec
    have hevents : store.events rt book = (logEvents rt run.status.disk.segments).map Prod.fst := by
      rw [SoloStore.events, hlookup]
      rfl
    rw [← hevents] at hregistered
    show register next.registry opened.registered = _
    by_cases hsystem : book = systemBook.name
    · rw [hopening.registry, if_neg (hsystem ▸ hfresh), if_pos (by simp [hsystem]), hregistered,
        hnone (hwhole hsystem), List.drop_zero, hsystem]
      rfl
    · have hquiet : registrations ((store.events rt book).drop count) = [] :=
        List.filterMap_eq_nil_iff.2 fun wire hmem => List.filterMap_eq_nil_iff.1
          (hinv.elsewhere book hsystem) wire (List.mem_of_mem_drop hmem)
      rw [hregistered, hquiet, hopening.registry]
      have hmem : systemBook.name ∈ order ++ [book] ↔ systemBook.name ∈ order := by
        rw [List.mem_append, List.mem_singleton, or_iff_left fun heq => hsystem heq.symm]
      simp only [hmem]
      rfl

/-- All books of the directory are opened, in any order. -/
theorem RegistryInv.opening (hinv : RegistryInv rt store)
    (hwhole : ∀ run ∈ store.books.lookup systemBook.name,
      (loadLatest run.status.disk.snaps).isNone = true)
    {order : List String} (hnodup : order.Nodup) (hbooks : ∀ book ∈ order, book ∈ store.books)
    (opts : LogStoreOptions) (io : String → SpillIo) :
    ∃ next, store.reopen rt order opts io = some next ∧
      Opening rt store opts io order next := by
  induction order using List.reverseRecOn with
  | nil =>
      refine ⟨_, rfl, rfl, fun book => ?_, rfl⟩
      simp [SoloStore.fresh]
  | append_singleton order book ih =>
      rw [List.nodup_append] at hnodup
      obtain ⟨hbefore, -, hapart⟩ := hnodup
      obtain ⟨next, hnext, hopening⟩ := ih hbefore fun other hother =>
        hbooks other (List.mem_append_left _ hother)
      obtain ⟨run, hlookup⟩ := Finmap.mem_iff.1 (hbooks book (by simp))
      have hfresh : book ∉ order := fun hmem => hapart book hmem book (by simp) rfl
      obtain ⟨later, hlater, hdone⟩ := hopening.openNext hinv hlookup hfresh fun hsystem =>
        hwhole run (hsystem ▸ hlookup)
      refine ⟨later, ?_, hdone⟩
      unfold SoloStore.reopen at hnext ⊢
      rw [List.foldlM_append, hnext]
      change List.foldlM (store.openNext rt opts io) next [book] = some later
      rw [List.foldlM_cons, hlater]
      rfl

/-- A store that has been opened again has the invariant, is not shut down, and
has a writer for each book. -/
theorem RegistryInv.reopen (hinv : RegistryInv rt store)
    (hwhole : ∀ run ∈ store.books.lookup systemBook.name,
      (loadLatest run.status.disk.snaps).isNone = true)
    {order : List String} (hlists : store.Lists order) (opts : LogStoreOptions)
    (io : String → SpillIo) :
    ∃ next, store.reopen rt order opts io = some next ∧ RegistryInv rt next ∧
      next.shutDown = false ∧ ¬ next.Stopped systemBook.name := by
  obtain ⟨hnodup, hkeys⟩ := hlists
  have hmem : ∀ book, book ∈ order ↔ book ∈ store.books := by
    intro book
    rw [← List.mem_toFinset, hkeys, Finmap.mem_keys]
  obtain ⟨next, hnext, hopening⟩ := hinv.opening hwhole hnodup (fun book => (hmem book).1) opts io
  have hlookup : ∀ book, next.books.lookup book =
      (store.books.lookup book).map fun run => run.reopen rt opts (io book) := by
    intro book
    rw [hopening.books]
    split
    · rfl
    · next habsent =>
        rw [Finmap.lookup_eq_none.2 fun hin => habsent ((hmem book).2 hin)]
        rfl
  have hrun : ∀ {book found}, next.books.lookup book = some found →
      ∃ run, store.books.lookup book = some run ∧ found = run.reopen rt opts (io book) := by
    intro book found hfound
    rw [hlookup, Option.map_eq_some_iff] at hfound
    obtain ⟨run, hrun, rfl⟩ := hfound
    exact ⟨run, hrun, rfl⟩
  have hevents : ∀ book, next.events rt book = store.events rt book := by
    intro book
    unfold SoloStore.events
    rw [hlookup]
    cases hbook : store.books.lookup book with
    | none => rfl
    | some run =>
        obtain ⟨-, -, -, hsame, -⟩ := (hinv.inv book run hbook).reopen_live opts (io book)
        exact hsame
  have hregistered : next.registered rt = store.registered rt :=
    congrArg registrations (hevents _)
  refine ⟨next, hnext, ⟨?_, ?_, ?_, fun _ => ?_⟩, hopening.shutDown, ?_⟩
  · intro book found hfound
    obtain ⟨run, hbook, rfl⟩ := hrun hfound
    exact ((hinv.inv book run hbook).reopen opts (io book)).1
  · intro book hbook
    rw [hevents]
    exact hinv.elsewhere book hbook
  · rw [hregistered]
    exact hinv.once
  · rw [hopening.registry, hregistered]
    split
    · rfl
    · next habsent =>
        rw [SoloStore.registered, SoloStore.events,
          Finmap.lookup_eq_none.2 fun hin => habsent ((hmem _).2 hin)]
        rfl
  · rintro ⟨found, hfound, hgone⟩
    obtain ⟨run, hbook, rfl⟩ := hrun hfound
    obtain ⟨-, -, -, -, hlive⟩ := (hinv.inv _ run hbook).reopen_live opts (io systemBook.name)
    rw [hlive] at hgone
    cases hgone

end Reopen

/-! ## Runs -/

section Runs

variable {store next : SoloStore}

/-- A store that is open and has not lost the writer of the system book serves
what its log has. -/
theorem RegistryInv.serves (hinv : RegistryInv rt store) (hopen : store.shutDown = false)
    (hlive : ¬ store.Stopped systemBook.name) : store.RegistryServes rt := by
  have hexact : ∀ id asset, store.asset id = some asset ↔
      asset ∈ store.registered rt ∧ asset.id = id := by
    intro id asset
    rw [SoloStore.asset, hinv.current hlive]
    exact lookup_register hinv.once
  refine ⟨hexact, fun account cfg io hregistered => ?_, fun asset hmem other io hid hdiffer => ?_⟩
  · obtain ⟨asset, hmem, hid⟩ := List.mem_map.1 hregistered
    have hfound := (hexact account.asset asset).2 ⟨hmem, hid⟩
    unfold SoloStore.openAccount
    split
    · simp
    · rw [hfound, if_neg (by simp)]
      exact hinv.inv.call_ne_unknownAsset account.asset
  · have hfound := (hexact other.id asset).2 ⟨hmem, hid.symm⟩
    rw [SoloStore.registerAsset, hopen, if_neg Bool.false_ne_true, hfound]
    dsimp only
    rw [if_neg fun heq => hdiffer heq.symm, hid]

theorem RegistryInv.step (hinv : RegistryInv rt store) {event : StoreEvent}
    (hwhole : store.WholeReplay event) (hstep : store.step rt event = some next) :
    RegistryInv rt next := by
  cases event with
  | registerAsset asset io =>
      cases hstep
      exact hinv.registerAsset asset io
  | openAccount account cfg io =>
      unfold SoloStore.step at hstep
      dsimp only at hstep
      split at hstep
      · cases hstep
      · cases hstep
        exact hinv.openAccount account cfg io
  | snapshotNow book io =>
      cases hstep
      exact hinv.snapshotNow book io
  | land book task io =>
      cases hstep
      exact hinv.land book task io
  | shutdown =>
      cases hstep
      exact ⟨hinv.inv, hinv.elsewhere, hinv.once, hinv.current⟩
  | reopen order opts io =>
      unfold SoloStore.step at hstep
      dsimp only at hstep
      split at hstep
      · next hlists =>
          obtain ⟨later, hlater, hinvLater, -⟩ := hinv.reopen hwhole hlists opts io
          rw [hlater] at hstep
          cases hstep
          exact hinvLater
      · cases hstep

theorem RegistryInv.reopensServing (hinv : RegistryInv rt store) {event : StoreEvent}
    (hwhole : store.WholeReplay event) : store.ReopensServing rt event := by
  cases event with
  | reopen order opts io =>
      intro hlists
      obtain ⟨next, hnext, hinvNext, hopen, hlive⟩ := hinv.reopen hwhole hlists opts io
      exact ⟨next, hnext, hinvNext.serves hopen hlive⟩
  | _ => trivial

theorem RegistryInv.fresh (rt : Runtime) (opts : LogStoreOptions) :
    RegistryInv rt (SoloStore.fresh opts) where
  inv book run hrun := by simp [SoloStore.fresh] at hrun
  elsewhere book _ := rfl
  once := List.nodup_nil
  current _ := rfl

end Runs

/-- Over any registrations, openings of accounts, snapshots and shutdowns, and
whatever the operating system does to them: as long as no snapshot of the system
book is loaded, every opening of the store gives the registry of the whole log,
and the registry stays that while the store is open and the system book has its
writer. -/
theorem registry_survives_reopen (rt : Runtime) (opts : LogStoreOptions) (events : List StoreEvent)
    (hwhole : StepsMeet (SoloStore.step rt) SoloStore.WholeReplay (SoloStore.fresh opts) events) :
    StatesMeet (SoloStore.step rt)
        (fun store => store.shutDown = false → ¬ store.Stopped systemBook.name →
          store.RegistryServes rt) (SoloStore.fresh opts) events ∧
      StepsMeet (SoloStore.step rt) (SoloStore.ReopensServing rt) (SoloStore.fresh opts) events :=
  invariant_run (fun _ _ _ hinv hcond hstep => RegistryInv.step hinv hcond hstep)
    (fun _ hinv => hinv.serves) (fun _ _ hinv hcond => hinv.reopensServing hcond)
    (RegistryInv.fresh rt opts) hwhole

/-! ## A snapshot that is loaded -/

namespace DollarTwice

def dollar : AssetDef :=
  ⟨⟨"USD"⟩, .fiat, 2, "dollar"⟩

def token : AssetDef :=
  ⟨⟨"USD"⟩, .fiat, 6, "token"⟩

def opts : LogStoreOptions :=
  ⟨100000, 0, 1000⟩

/-- Nothing goes wrong around a call. -/
def calm : CallIo :=
  ⟨.ok .ok, [], 1, 1, .ok, .ok, none⟩

/-- The store is opened again behind a registration, and the id is tried once
more. -/
def plain : List StoreEvent :=
  [.registerAsset dollar calm, .shutdown, .reopen [systemBook.name] opts fun _ => .ok,
    .registerAsset token calm]

/-- A snapshot is taken before the store is closed. -/
def snapped : List StoreEvent :=
  [.registerAsset dollar calm, .snapshotNow systemBook.name calm, .shutdown]

set_option maxRecDepth 20000 in
theorem whole_plain :
    StepsMeet (SoloStore.step binaryRuntime) SoloStore.WholeReplay (SoloStore.fresh opts)
      plain := by
  decide +kernel

set_option maxRecDepth 20000 in
/-- The asset is in the log and not in the registry, and another one is
registered under its id. -/
theorem reopened_snapped :
    ((execSteps (SoloStore.step binaryRuntime) (SoloStore.fresh opts) snapped).bind fun store =>
      (store.step binaryRuntime (.reopen [systemBook.name] opts fun _ => .ok)).map fun next =>
        (next.asset dollar.id, next.registered binaryRuntime,
          (next.registerAsset binaryRuntime token calm).1.registered binaryRuntime)) =
      some (none, [dollar], [dollar, token]) := by
  decide +kernel

end DollarTwice

theorem registry_survives_reopen_plain :
    StatesMeet (SoloStore.step binaryRuntime)
        (fun store => store.shutDown = false → ¬ store.Stopped systemBook.name →
          store.RegistryServes binaryRuntime) (SoloStore.fresh DollarTwice.opts)
        DollarTwice.plain ∧
      StepsMeet (SoloStore.step binaryRuntime) (SoloStore.ReopensServing binaryRuntime)
        (SoloStore.fresh DollarTwice.opts) DollarTwice.plain :=
  registry_survives_reopen binaryRuntime DollarTwice.opts DollarTwice.plain DollarTwice.whole_plain

/-- Not in every run: what is behind a snapshot does not come back into the
registry. -/
theorem registry_lost_behind_snapshot : ¬ ∀ (rt : Runtime) (opts : LogStoreOptions)
    (events : List StoreEvent),
    StepsMeet (SoloStore.step rt) (SoloStore.ReopensServing rt) (SoloStore.fresh opts) events := by
  intro hall
  obtain ⟨store, hexec, hstore⟩ := Option.bind_eq_some_iff.1 DollarTwice.reopened_snapped
  obtain ⟨next, hnext, hfound⟩ := Option.map_eq_some_iff.1 hstore
  obtain ⟨hasset, hrest⟩ := Prod.mk.inj hfound
  obtain ⟨hregistered, -⟩ := Prod.mk.inj hrest
  have hserving := (hall binaryRuntime DollarTwice.opts (DollarTwice.snapped ++
    [.reopen [systemBook.name] DollarTwice.opts fun _ => .ok])).last hexec
  unfold SoloStore.step at hnext
  dsimp only at hnext
  split at hnext
  · next hlists =>
      obtain ⟨served, hserved, hserves⟩ := hserving hlists
      obtain rfl := Option.some.inj (hnext.symm.trans hserved)
      have hback := (hserves.exact DollarTwice.dollar.id DollarTwice.dollar).2
        ⟨by rw [hregistered]; exact List.mem_singleton_self _, rfl⟩
      rw [hasset] at hback
      cases hback
  · cases hnext

end Talea.Log
