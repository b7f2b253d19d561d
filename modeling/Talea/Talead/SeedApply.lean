import Talea.Lib.Repeatable
import Talea.Log.SoloStore
import Talea.Talead.Seed

/-!
# Applying a seed file

A seed file is applied to a store entry by entry, the assets first, and stops at
the first entry that fails.  Nothing is taken back then.  A file that has been
applied is applied again without an effect, and one that is applied behind
failed attempts has the effect of all its entries, each of them once.
-/

namespace Talea.Talead

open Log

def SeedAsset.toDef (asset : SeedAsset) : AssetDef :=
  ⟨⟨asset.id⟩, asset.assetClass, asset.precision, asset.name⟩

def SeedAccount.toDef (account : SeedAccount) : AccountDef × AccountCfg :=
  (⟨account.accountId, ⟨account.asset⟩, account.kind⟩,
    ⟨account.normalSide, account.minBalance⟩)

/-- What differs between two definitions of an asset. -/
def diffAssets (existing new : AssetDef) : String :=
  let precision := if existing.precision ≠ new.precision then
    [s!"precision {existing.precision} vs {new.precision}"] else []
  let name := if existing.name ≠ new.name then
    [s!"name {existing.name.quote} vs {new.name.quote}"] else []
  let assetClass := if existing.assetClass ≠ new.assetClass then ["class differs"] else []
  String.intercalate ", " (precision ++ name ++ assetClass)

/-! ## Entries -/

inductive SeedEntry
  | asset (asset : SeedAsset)
  | account (account : SeedAccount)

def SeedFile.entries (seed : SeedFile) : List SeedEntry :=
  seed.assets.map .asset ++ seed.accounts.map .account

/-- What an entry was found to be, or made. -/
inductive Ensured
  | assetCreated
  | assetExisting
  | account

structure ApplySummary where
  assetsCreated : ℕ
  assetsExisting : ℕ
  accountsEnsured : ℕ
  deriving DecidableEq

def ApplySummary.count (summary : ApplySummary) : Ensured → ApplySummary
  | .assetCreated => { summary with assetsCreated := summary.assetsCreated + 1 }
  | .assetExisting => { summary with assetsExisting := summary.assetsExisting + 1 }
  | .account => { summary with accountsEnsured := summary.accountsEnsured + 1 }

variable (rt : Runtime)

/-- Register an asset that the store does not have; one that it has must be the
same. -/
def applyAsset (io : CallIo) (store : SoloStore) (asset : SeedAsset) :
    SoloStore × Except SeedError Ensured :=
  match store.asset asset.toDef.id with
  | some existing =>
      if existing = asset.toDef then (store, .ok .assetExisting)
      else (store, .error (.assetConflict asset.id (diffAssets existing asset.toDef)))
  | none =>
      match store.registerAsset rt asset.toDef io with
      | (store, .error err) => (store, .error (.store err))
      | (store, .ok ()) => (store, .ok .assetCreated)

/-- Open an account whose asset is in the file or in the store. -/
def applyAccount (fileAssets : Finset String) (io : CallIo) (store : SoloStore)
    (account : SeedAccount) : SoloStore × Except SeedError Ensured :=
  if account.asset ∉ fileAssets ∧ (store.asset account.toDef.1.asset).isNone then
    (store, .error (.missingAsset account.toDef.1.id.toKey account.asset))
  else
    match store.openAccount rt account.toDef.1 account.toDef.2 io with
    | (store, .error err) => (store, .error (.store err))
    | (store, .ok ()) => (store, .ok .account)

def applyEntry (fileAssets : Finset String) (io : CallIo) (store : SoloStore) :
    SeedEntry → SoloStore × Except SeedError Ensured
  | .asset asset => applyAsset rt io store asset
  | .account account => applyAccount rt fileAssets io store account

def SeedFile.assetIds (seed : SeedFile) : Finset String :=
  (seed.assets.map SeedAsset.id).toFinset

/-- Apply the entries in turn; `io` is what happens around the calls of each. -/
def apply (io : ℕ → CallIo) (store : SoloStore) (seed : SeedFile) :
    SoloStore × Except SeedError ApplySummary :=
  match runEach (applyEntry rt seed.assetIds) io 0 seed.entries store with
  | (store, .error err) => (store, .error err)
  | (store, .ok found) => (store, .ok (found.foldl ApplySummary.count ⟨0, 0, 0⟩))

variable {rt}

/-! ## What an entry does -/

namespace SeedEntry

/-- The book that an entry is for. -/
def book : SeedEntry → String
  | .asset _ => systemBook.name
  | .account seeded => seeded.book

/-- What an entry is found to be when there is nothing to do. -/
def again : SeedEntry → Ensured
  | .asset _ => .assetExisting
  | .account _ => .account

/-- The entry will be found as it is in the file. -/
def Settled (store : SoloStore) : SeedEntry → Prop
  | .asset seeded => store.asset seeded.toDef.id = some seeded.toDef
  | .account seeded =>
      seeded.accountId.book.isReserved = false ∧ (store.asset ⟨seeded.asset⟩).isSome = true ∧
        store.shutDown = false ∧ validateBookName seeded.book = true ∧ store.Live seeded.book ∧
        ∃ existing, (store.accounts seeded.book).lookup seeded.accountId.toKey = some existing ∧
          existing.account = seeded.toDef.1 ∧ existing.cfg = seeded.toDef.2

/-- The entry is missing and the writer of its book is gone. -/
def Stuck (store : SoloStore) : SeedEntry → Prop
  | .asset seeded => store.asset seeded.toDef.id = none ∧ store.Stopped systemBook.name
  | .account seeded => store.Stopped seeded.book

end SeedEntry

/-- How the step of an entry ends. -/
inductive StepEnds (rt : Runtime) (store : SoloStore) :
    SeedEntry → SoloStore → Except SeedError Ensured → Prop
  | refused {entry : SeedEntry} (err : SeedError) : StepEnds rt store entry store (.error err)
  | gone {entry : SeedEntry} {next : SoloStore} (err : SeedError)
      (htouches : store.Touches entry.book next) (hstuck : entry.Stuck next) :
      StepEnds rt store entry next (.error err)
  | existing {asset : SeedAsset} (hfound : store.asset asset.toDef.id = some asset.toDef) :
      StepEnds rt store (.asset asset) store (.ok .assetExisting)
  | created {asset : SeedAsset} {mid : SoloStore} (hnew : store.asset asset.toDef.id = none)
      (htouches : store.Touches systemBook.name mid)
      (hanswered : store.Answered rt mid systemBook.name (.registerAsset asset.toDef) (.ok ())) :
      StepEnds rt store (.asset asset)
        { mid with registry := mid.registry.insert asset.toDef.id asset.toDef }
        (.ok .assetCreated)
  | ensured {account : SeedAccount} {next : SoloStore}
      (hopen : account.accountId.book.isReserved = false)
      (hasset : (store.asset ⟨account.asset⟩).isSome = true)
      (htouches : store.Touches account.book next)
      (hanswered : store.Answered rt next account.book
        (.openAccount account.toDef.1 account.toDef.2) (.ok ())) :
      StepEnds rt store (.account account) next (.ok .account)
  | conflict {account : SeedAccount} {next : SoloStore} {err : StoreError}
      (htouches : store.Touches account.book next)
      (hanswered : store.Answered rt next account.book
        (.openAccount account.toDef.1 account.toDef.2) (.error err)) :
      StepEnds rt store (.account account) next (.error (.store err))

section Step

variable {store next : SoloStore} {io : CallIo} {result : Except SeedError Ensured}

/-- The invariant of the store, with the events of an earlier store in front. -/
def Behind (rt : Runtime) (base store : SoloStore) : Prop :=
  store.Inv rt ∧ ∀ book, base.events rt book <+: store.events rt book

variable {base : SoloStore}

theorem Behind.call (hbehind : Behind rt base store) (hnext : next.Inv rt) {book : String}
    (htouches : store.Touches book next)
    (hgrows : store.events rt book <+: next.events rt book) : Behind rt base next := by
  refine ⟨hnext, fun other => (hbehind.2 other).trans ?_⟩
  by_cases hother : other = book
  · rw [hother]
    exact hgrows
  · rw [SoloStore.events, SoloStore.events, htouches.others other hother]

theorem applyAsset_ends (hbehind : Behind rt base store) {asset : SeedAsset}
    (hstep : applyAsset rt io store asset = (next, result)) :
    Behind rt base next ∧ StepEnds rt store (.asset asset) next result := by
  unfold applyAsset at hstep
  cases hfound : store.asset asset.toDef.id with
  | some existing =>
      rw [hfound] at hstep
      dsimp only at hstep
      split at hstep
      next hsame =>
        cases hstep
        rw [hsame] at hfound
        exact ⟨hbehind, .existing hfound⟩
      next =>
        cases hstep
        exact ⟨hbehind, .refused _⟩
  | none =>
      rw [hfound] at hstep
      dsimp only at hstep
      unfold SoloStore.registerAsset at hstep
      by_cases hflag : store.shutDown = true
      · rw [if_pos hflag] at hstep
        cases hstep
        exact ⟨hbehind, .refused _⟩
      rw [if_neg hflag, hfound] at hstep
      dsimp only at hstep
      rcases hcall : store.call rt systemBook.name (.registerAsset asset.toDef)
        "book writer gone during register_asset" io with ⟨mid, err | ⟨⟩⟩
      · rw [hcall] at hstep
        cases hstep
        obtain ⟨hmid, htouches, hgrows, ⟨-, rfl | hstopped⟩ | hanswered⟩ :=
          hbehind.1.call rfl hcall
        · exact ⟨hbehind, .refused _⟩
        · refine ⟨hbehind.call hmid htouches hgrows, .gone _ htouches ⟨?_, hstopped⟩⟩
          rw [SoloStore.asset, htouches.registry]
          exact hfound
        · -- a registration that is answered has gone well
          obtain ⟨events, hsetUp, -⟩ := hanswered.setUp
          cases hsetUp.of_registerAsset.2.2
      · rw [hcall] at hstep
        cases hstep
        obtain ⟨hmid, htouches, hgrows, ⟨⟨err, herr⟩, -⟩ | hanswered⟩ :=
          hbehind.1.call rfl hcall
        · cases herr
        · have hmore := hbehind.call hmid htouches hgrows
          exact ⟨⟨hmore.1, hmore.2⟩, .created hfound htouches hanswered⟩

theorem applyAccount_ends (hbehind : Behind rt base store) {fileAssets : Finset String}
    {account : SeedAccount} (hstep : applyAccount rt fileAssets io store account = (next, result)) :
    Behind rt base next ∧ StepEnds rt store (.account account) next result := by
  unfold applyAccount at hstep
  split at hstep
  · cases hstep
    exact ⟨hbehind, .refused _⟩
  unfold SoloStore.openAccount at hstep
  by_cases hreserved : account.toDef.1.id.book.isReserved = true
  · rw [if_pos hreserved] at hstep
    cases hstep
    exact ⟨hbehind, .refused _⟩
  rw [if_neg hreserved] at hstep
  by_cases hasset : (store.asset account.toDef.1.asset).isNone = true
  · rw [if_pos hasset] at hstep
    cases hstep
    exact ⟨hbehind, .refused _⟩
  rw [if_neg hasset] at hstep
  rcases hcall : store.call rt account.toDef.1.id.book.name
    (.openAccount account.toDef.1 account.toDef.2) "book writer gone during open_account" io with
    ⟨mid, err | ⟨⟩⟩
  · rw [hcall] at hstep
    cases hstep
    obtain ⟨hnext, htouches, hgrows, ⟨-, rfl | hstopped⟩ | hanswered⟩ := hbehind.1.call rfl hcall
    · exact ⟨hbehind, .refused _⟩
    · exact ⟨hbehind.call hnext htouches hgrows, .gone _ htouches hstopped⟩
    · exact ⟨hbehind.call hnext htouches hgrows, .conflict htouches hanswered⟩
  · rw [hcall] at hstep
    cases hstep
    obtain ⟨hnext, htouches, hgrows, ⟨⟨err, herr⟩, -⟩ | hanswered⟩ := hbehind.1.call rfl hcall
    · cases herr
    · refine ⟨hbehind.call hnext htouches hgrows,
        .ensured (eq_false_of_ne_true hreserved) ?_ htouches hanswered⟩
      exact Option.isSome_iff_ne_none.2 fun hnone => hasset (Option.isNone_iff_eq_none.2 hnone)

end Step

theorem applyEntry_ends {base store next : SoloStore} {io : CallIo}
    {result : Except SeedError Ensured} {fileAssets : Finset String} {entry : SeedEntry}
    (hbehind : Behind rt base store)
    (hstep : applyEntry rt fileAssets io store entry = (next, result)) :
    Behind rt base next ∧ StepEnds rt store entry next result := by
  cases entry with
  | asset asset => exact applyAsset_ends hbehind hstep
  | account account => exact applyAccount_ends hbehind hstep

/-! ## What counts of a store -/

/-- The registry, and the events and accounts of the books. -/
structure Contents where
  registry : HashMap AssetId AssetDef
  events : String → List LedgerEvent
  accounts : String → HashMap String AccountState

def contents (rt : Runtime) (store : SoloStore) : Contents :=
  ⟨store.registry, store.ledgerEvents rt, store.accounts⟩

namespace SeedEntry

/-- The event that the entry is set up by. -/
def event : SeedEntry → LedgerEvent
  | .asset seeded => .assetRegistered seeded.toDef
  | .account seeded => .accountOpened seeded.toDef.1 seeded.toDef.2

/-- There is an asset with this id, or an account with this key in the book. -/
def Present (seen : Contents) : SeedEntry → Prop
  | .asset seeded => (seen.registry.lookup seeded.toDef.id).isSome = true
  | .account seeded => ((seen.accounts seeded.book).lookup seeded.accountId.toKey).isSome = true

instance (seen : Contents) (entry : SeedEntry) : Decidable (entry.Present seen) := by
  cases entry <;> exact inferInstanceAs (Decidable (_ = true))

/-- The contents with the entry set up. -/
def insert (seen : Contents) : SeedEntry → Contents
  | .asset seeded =>
      { seen with
        registry := seen.registry.insert seeded.toDef.id seeded.toDef
        events := Function.update seen.events systemBook.name
          (seen.events systemBook.name ++ [.assetRegistered seeded.toDef]) }
  | .account seeded =>
      { seen with
        events := Function.update seen.events seeded.book
          (seen.events seeded.book ++ [.accountOpened seeded.toDef.1 seeded.toDef.2])
        accounts := Function.update seen.accounts seeded.book
          ((seen.accounts seeded.book).insert seeded.accountId.toKey
            (.opened seeded.toDef.1 seeded.toDef.2)) }

def add (seen : Contents) (entry : SeedEntry) : Contents :=
  if entry.Present seen then seen else entry.insert seen

end SeedEntry

section Step

variable {store next : SoloStore} {entry other : SeedEntry} {found : Ensured}
  {result : Except SeedError Ensured} {book : String}

theorem contents_of_touches (rt : Runtime) (htouches : store.Touches book next) :
    contents rt next = ⟨store.registry,
      Function.update (store.ledgerEvents rt) book (next.ledgerEvents rt book),
      Function.update store.accounts book (next.accounts book)⟩ := by
  have hevents : next.ledgerEvents rt =
      Function.update (store.ledgerEvents rt) book (next.ledgerEvents rt book) := by
    funext name
    by_cases hname : name = book
    · rw [hname, Function.update_self]
    · rw [Function.update_of_ne hname, SoloStore.ledgerEvents, SoloStore.ledgerEvents,
        SoloStore.events, SoloStore.events, htouches.others name hname]
  have haccounts : next.accounts = Function.update store.accounts book (next.accounts book) := by
    funext name
    by_cases hname : name = book
    · rw [hname, Function.update_self]
    · rw [Function.update_of_ne hname, SoloStore.accounts, SoloStore.accounts,
        htouches.others name hname]
  rw [contents, htouches.registry, ← hevents, ← haccounts]

/-- Where the accounts are the same and no event is appended, so are the
contents. -/
theorem contents_of_quiet (htouches : store.Touches book next)
    (haccounts : next.accounts book = store.accounts book)
    (hevents : next.ledgerEvents rt book = store.ledgerEvents rt book) :
    contents rt next = contents rt store := by
  rw [contents_of_touches rt htouches, haccounts, hevents, Function.update_eq_self,
    Function.update_eq_self]
  rfl

theorem StepEnds.contents_error {err : SeedError}
    (hends : StepEnds rt store entry next (.error err)) :
    contents rt next = contents rt store ∨ entry.Stuck next := by
  cases hends with
  | refused => exact Or.inl rfl
  | gone _ htouches hstuck => exact Or.inr hstuck
  | conflict htouches hanswered =>
      obtain ⟨events, hsetUp, hevents⟩ := hanswered.setUp
      obtain ⟨haccounts, hnone⟩ := hsetUp.of_error
      rw [hnone, List.append_nil] at hevents
      exact Or.inl (contents_of_quiet htouches haccounts hevents)

theorem StepEnds.contents_ok (hends : StepEnds rt store entry next (.ok found)) :
    contents rt next = entry.add (contents rt store) := by
  cases hends with
  | @existing asset hfound =>
      have hpresent : SeedEntry.Present (contents rt store) (.asset asset) :=
        Option.isSome_of_eq_some hfound
      rw [SeedEntry.add, if_pos hpresent]
  | @created asset mid hnew htouches hanswered =>
      obtain ⟨events, hsetUp, hevents⟩ := hanswered.setUp
      obtain ⟨haccounts, rfl, -⟩ := hsetUp.of_registerAsset
      have hmissing : ¬ SeedEntry.Present (contents rt store) (.asset asset) := by
        change ¬ (store.asset asset.toDef.id).isSome = true
        rw [hnew]
        exact Bool.false_ne_true
      have hmid := contents_of_touches rt htouches
      rw [haccounts, hevents, Function.update_eq_self] at hmid
      rw [SeedEntry.add, if_neg hmissing]
      have hregistry := htouches.registry
      obtain ⟨-, heventsMid, haccountsMid⟩ := Contents.mk.inj hmid
      change Contents.mk (mid.registry.insert _ _) (mid.ledgerEvents rt) mid.accounts = _
      rw [hregistry, heventsMid, haccountsMid]
      rfl
  | @ensured account next hopen hasset htouches hanswered =>
      obtain ⟨events, hsetUp, hevents⟩ := hanswered.setUp
      rcases hsetUp.of_openAccount with ⟨existing, hfound, -, haccounts, rfl⟩ |
        ⟨hnew, haccounts, rfl⟩
      · have hpresent : SeedEntry.Present (contents rt store) (.account account) :=
          Option.isSome_of_eq_some hfound
        rw [List.append_nil] at hevents
        rw [SeedEntry.add, if_pos hpresent]
        exact contents_of_quiet htouches haccounts hevents
      · have hmissing : ¬ SeedEntry.Present (contents rt store) (.account account) := by
          change ¬ ((store.accounts account.book).lookup account.accountId.toKey).isSome = true
          have hnone : (store.accounts account.book).lookup account.accountId.toKey = none := hnew
          rw [hnone]
          exact Bool.false_ne_true
        rw [SeedEntry.add, if_neg hmissing, contents_of_touches rt htouches, haccounts, hevents]
        rfl

/-! ## Entries that are settled, and entries that are stuck -/

theorem SeedEntry.Settled.keeps (hsettled : other.Settled store) (hkeeps : store.Keeps next) :
    other.Settled next := by
  cases other with
  | asset seeded => exact hkeeps.assets hsettled
  | account seeded =>
      obtain ⟨hopen, hasset, hflag, hnamed, hlive, existing, hfound, hsame⟩ := hsettled
      obtain ⟨asset, hasset⟩ := Option.isSome_iff_exists.1 hasset
      exact ⟨hopen, Option.isSome_of_eq_some (hkeeps.assets hasset),
        hkeeps.shutDown.trans hflag, hnamed, hkeeps.live hlive, existing,
        hkeeps.accounts hfound, hsame⟩

theorem StepEnds.keeps (hends : StepEnds rt store entry next (.ok found)) : store.Keeps next := by
  cases hends with
  | existing => exact .refl store
  | ensured _ _ htouches hanswered => exact hanswered.keeps htouches
  | @created asset mid hnew htouches hanswered =>
      obtain ⟨hassets, hflag, hlive, haccounts⟩ := hanswered.keeps htouches
      refine ⟨fun {id existing} hfound => ?_, hflag, hlive, haccounts⟩
      have hother : id ≠ asset.toDef.id := by
        rintro rfl
        rw [hnew] at hfound
        cases hfound
      change (mid.registry.insert asset.toDef.id asset.toDef).lookup id = some existing
      rw [Finmap.lookup_insert_of_ne _ hother]
      exact hassets hfound

theorem StepEnds.settled (hends : StepEnds rt store entry next (.ok found)) :
    entry.Settled next := by
  have hkeeps := hends.keeps
  cases hends with
  | existing hfound => exact hfound
  | created => exact Finmap.lookup_insert _
  | @ensured account next hopen hasset htouches hanswered =>
      obtain ⟨asset, hasset⟩ := Option.isSome_iff_exists.1 hasset
      refine ⟨hopen, Option.isSome_of_eq_some (hkeeps.assets hasset),
        hkeeps.shutDown.trans hanswered.shutDown, hanswered.named, hanswered.after, ?_⟩
      obtain ⟨events, hsetUp, -⟩ := hanswered.setUp
      rcases hsetUp.of_openAccount with ⟨existing, hfound, hsame, -⟩ | ⟨-, haccounts, -⟩
      · exact ⟨existing, hkeeps.accounts hfound, hsame⟩
      · refine ⟨.opened account.toDef.1 account.toDef.2, ?_, rfl, rfl⟩
        rw [haccounts]
        exact Finmap.lookup_insert _

/-- The step of a stuck entry fails. -/
theorem StepEnds.not_stuck (hends : StepEnds rt store entry next (.ok found)) :
    ¬ entry.Stuck store := by
  cases hends with
  | existing hfound =>
      rintro ⟨hmissing, -⟩
      rw [hfound] at hmissing
      cases hmissing
  | created _ _ hanswered => exact fun hstuck => hanswered.before hstuck.2
  | ensured _ _ _ hanswered => exact hanswered.before

theorem SeedEntry.Stuck.keeps (hstuck : other.Stuck store) (htouches : store.Touches book next)
    (hbook : store.Stopped book → next.Stopped book) : other.Stuck next := by
  cases other with
  | account seeded => exact SoloStore.Stopped.keeps hstuck htouches hbook
  | asset seeded =>
      refine ⟨?_, hstuck.2.keeps htouches hbook⟩
      rw [SoloStore.asset, htouches.registry]
      exact hstuck.1

theorem StepEnds.stuck_keeps (hends : StepEnds rt store entry next result)
    (hstuck : other.Stuck store) : other.Stuck next := by
  cases hends with
  | refused => exact hstuck
  | existing => exact hstuck
  | ensured _ _ htouches hanswered =>
      exact hstuck.keeps htouches fun hstopped => absurd hstopped hanswered.before
  | conflict htouches hanswered =>
      exact hstuck.keeps htouches fun hstopped => absurd hstopped hanswered.before
  | gone _ htouches hgone =>
      refine hstuck.keeps htouches fun _ => ?_
      cases entry with
      | asset seeded => exact hgone.2
      | account seeded => exact hgone
  | created hnew htouches hanswered =>
      -- the registry grows only through the writer of the system book
      have hmid := hstuck.keeps htouches fun hstopped => absurd hstopped hanswered.before
      cases other with
      | asset seeded => exact absurd hstuck.2 hanswered.before
      | account seeded => exact hmid

theorem applyEntry_settled (hinv : store.Inv rt) (hsettled : entry.Settled store)
    (fileAssets : Finset String) (io : CallIo) :
    (applyEntry rt fileAssets io store entry).2 = .ok entry.again := by
  cases entry with
  | asset seeded =>
      have hfound : store.asset seeded.toDef.id = some seeded.toDef := hsettled
      rw [applyEntry, applyAsset, hfound]
      dsimp only
      rw [if_pos rfl]
      rfl
  | account seeded =>
      obtain ⟨hopen, hasset, hflag, hnamed, hlive, existing, hfound, hsame⟩ := hsettled
      have hsome : (store.asset seeded.toDef.1.asset).isNone = false :=
        Option.isNone_eq_false_iff.2 hasset
      have hbook : seeded.toDef.1.id.book.isReserved = false := hopen
      have hkey : (store.accounts seeded.toDef.1.id.book.name).lookup
        seeded.toDef.1.id.toKey = some existing := hfound
      have hcall : (store.call rt seeded.toDef.1.id.book.name
          (.openAccount seeded.toDef.1 seeded.toDef.2) "book writer gone during open_account"
          io).2 = .ok () :=
        hinv.call_same hflag hnamed hlive hkey hsame _ io
      rw [applyEntry, applyAccount, if_neg (by simp [hsome]), SoloStore.openAccount, hbook,
        if_neg Bool.false_ne_true, hsome, if_neg Bool.false_ne_true]
      rcases hresult : store.call rt seeded.toDef.1.id.book.name
        (.openAccount seeded.toDef.1 seeded.toDef.2) "book writer gone during open_account" io with
        ⟨next, result⟩
      rw [hresult] at hcall
      dsimp only at hcall ⊢
      rw [hcall]
      rfl

end Step

/-! ## The effect of the entries -/

namespace SeedEntry

/-- Which asset or account an entry is for. -/
def name : SeedEntry → AssetId ⊕ AccountId
  | .asset seeded => .inl seeded.toDef.id
  | .account seeded => .inr seeded.accountId

variable {seen : Contents} {entry other : SeedEntry}

theorem present_insert_self (seen : Contents) (entry : SeedEntry) :
    entry.Present (entry.insert seen) := by
  cases entry with
  | asset seeded => exact Option.isSome_of_eq_some (Finmap.lookup_insert _)
  | account seeded =>
      unfold insert Present
      dsimp only
      rw [Function.update_self, Finmap.lookup_insert]
      rfl

/-- An entry sets up nothing that is listed under another name. -/
theorem present_insert_of_ne (hname : other.name ≠ entry.name) :
    other.Present (entry.insert seen) ↔ other.Present seen := by
  cases entry with
  | asset seeded =>
      cases other with
      | account => exact Iff.rfl
      | asset listed =>
          have hid : listed.toDef.id ≠ seeded.toDef.id := fun h => hname (congrArg Sum.inl h)
          unfold insert Present
          dsimp only
          rw [Finmap.lookup_insert_of_ne _ hid]
  | account seeded =>
      cases other with
      | asset => exact Iff.rfl
      | account listed =>
          unfold insert Present
          dsimp only
          by_cases hbook : listed.book = seeded.book
          · have hkey : listed.accountId.toKey ≠ seeded.accountId.toKey := fun h =>
              hname (congrArg Sum.inr (AccountId.toKey_injective h))
            rw [hbook, Function.update_self, Finmap.lookup_insert_of_ne _ hkey]
          · rw [Function.update_of_ne hbook]

theorem present_insert (entry : SeedEntry) (hpresent : other.Present seen) :
    other.Present (entry.insert seen) := by
  by_cases hname : other.name = entry.name
  · have hself := present_insert_self seen entry
    cases entry with
    | asset seeded =>
        cases other with
        | account => cases hname
        | asset listed =>
            have hid : listed.toDef.id = seeded.toDef.id := Sum.inl.inj hname
            unfold Present at hself ⊢
            dsimp only at hself ⊢
            rwa [hid]
    | account seeded =>
        cases other with
        | asset => cases hname
        | account listed =>
            have hid : listed.accountId = seeded.accountId := Sum.inr.inj hname
            have hbook : listed.book = seeded.book := congrArg (fun id => id.book.name) hid
            unfold Present at hself ⊢
            dsimp only at hself ⊢
            rwa [hid, hbook]
  · exact (present_insert_of_ne hname).2 hpresent

theorem present_add (seen : Contents) (entry : SeedEntry) : entry.Present (entry.add seen) := by
  unfold add
  split
  next hpresent => exact hpresent
  next => exact present_insert_self seen entry

theorem add_keeps (entry : SeedEntry) (hpresent : other.Present seen) :
    other.Present (entry.add seen) := by
  unfold add
  split
  · exact hpresent
  · exact present_insert entry hpresent

/-- Of entries with different names those are set up that are missing. -/
theorem foldl_add {entries : List SeedEntry} (hnames : (entries.map name).Nodup)
    (seen : Contents) :
    entries.foldl (fun seen entry => entry.add seen) seen =
      (entries.filter fun entry => ¬ entry.Present seen).foldl
        (fun seen entry => entry.insert seen) seen := by
  induction entries generalizing seen with
  | nil => rfl
  | cons entry entries ih =>
      rw [List.map_cons, List.nodup_cons] at hnames
      rw [List.foldl_cons, ih hnames.2]
      by_cases hpresent : entry.Present seen
      · rw [add, if_pos hpresent, List.filter_cons_of_neg (by simpa using hpresent)]
      · rw [add, if_neg hpresent, List.filter_cons_of_pos (by simpa using hpresent),
          List.foldl_cons]
        congr 1
        refine List.filter_congr fun other hother => ?_
        have hname : other.name ≠ entry.name := fun hsame =>
          hnames.1 (hsame ▸ List.mem_map_of_mem hother)
        simp only [present_insert_of_ne hname]

/-- The events of a book, when entries are set up. -/
theorem events_foldl_insert (entries : List SeedEntry) (seen : Contents) (book : String) :
    (entries.foldl (fun seen entry => entry.insert seen) seen).events book =
      seen.events book ++ (entries.filter fun entry => entry.book = book).map event := by
  induction entries generalizing seen with
  | nil => simp
  | cons entry entries ih =>
      have hevents : (entry.insert seen).events =
          Function.update seen.events entry.book (seen.events entry.book ++ [entry.event]) := by
        cases entry <;> rfl
      rw [List.foldl_cons, ih, hevents]
      by_cases hbook : entry.book = book
      · rw [List.filter_cons_of_pos (by simpa using hbook), ← hbook, Function.update_self,
          List.map_cons, List.append_assoc]
        rfl
      · rw [List.filter_cons_of_neg (by simpa using hbook), Function.update_of_ne (Ne.symm hbook)]

/-- An event says which asset or account it sets up. -/
theorem name_of_event (hevent : entry.event = other.event) : entry.name = other.name := by
  cases entry with
  | asset seeded =>
      cases other with
      | asset listed =>
          exact congrArg (fun asset => Sum.inl asset.id) (LedgerEvent.assetRegistered.inj hevent)
      | account => cases hevent
  | account seeded =>
      cases other with
      | asset => cases hevent
      | account listed =>
          have hdef := (LedgerEvent.accountOpened.inj hevent).1
          exact congrArg (fun account => Sum.inr account.id) hdef

end SeedEntry

/-- The entries of a validated file have different names. -/
theorem names_nodup {seed : SeedFile} (hvalid : validate seed = .ok ()) :
    (seed.entries.map SeedEntry.name).Nodup := by
  unfold validate at hvalid
  obtain ⟨ids, hassets, hrest⟩ := Except.bind_eq_ok.1 hvalid
  obtain ⟨keys, haccounts, -⟩ := Except.bind_eq_ok.1 hrest
  have hids : (seed.assets.map SeedAsset.id).Nodup := by
    refine (nodup_of_foldlM_eq_ok (fun seen asset next hstep => ?_) hassets).1
    unfold validateAsset at hstep
    split at hstep
    · cases hstep
    split at hstep
    · cases hstep
    split at hstep
    · cases hstep
    next hnew =>
      cases hstep
      exact ⟨hnew, rfl⟩
  have hkeys : (seed.accounts.map SeedAccount.key).Nodup := by
    refine (nodup_of_foldlM_eq_ok (fun seen account next hstep => ?_) haccounts).1
    unfold validateAccount at hstep
    split at hstep
    · cases hstep
    split at hstep
    · cases hstep
    split at hstep
    · cases hstep
    split at hstep
    · cases hstep
    split at hstep
    · cases hstep
    next hnew =>
      cases hstep
      exact ⟨hnew, rfl⟩
  have hassetNames : (seed.assets.map fun asset => SeedEntry.name (.asset asset)).Nodup := by
    refine List.Nodup.of_map (fun name => (name.getLeft?.map AssetId.id).getD "") ?_
    rw [List.map_map]
    exact hids
  have haccountNames :
      (seed.accounts.map fun account => SeedEntry.name (.account account)).Nodup := by
    have hdistinct := accountsDistinct_of_keys hkeys
    rw [SeedFile.AccountsDistinct] at hdistinct
    have hmap : (seed.accounts.map fun account => SeedEntry.name (.account account)) =
        (seed.accounts.map SeedAccount.accountId).map Sum.inr := by
      rw [List.map_map]
      rfl
    rw [hmap]
    exact hdistinct.map Sum.inr_injective
  rw [SeedFile.entries, List.map_append, List.map_map, List.map_map, List.nodup_append]
  refine ⟨hassetNames, haccountNames, fun left hleft right hright hsame => ?_⟩
  obtain ⟨asset, -, rfl⟩ := List.mem_map.1 hleft
  obtain ⟨account, -, rfl⟩ := List.mem_map.1 hright
  cases hsame

/-! ## Whole files -/

theorem applyEntry_repeatable (rt : Runtime) (base : SoloStore) (fileAssets : Finset String) :
    Repeatable (applyEntry rt fileAssets) (Behind rt base) (contents rt)
      (fun seen entry => entry.add seen) (fun seen entry => entry.Present seen)
      (fun store entry => entry.Settled store) (fun store entry => entry.Stuck store)
      SeedEntry.again where
  ok hbehind hstep := by
    obtain ⟨hnext, hends⟩ := applyEntry_ends hbehind hstep
    exact ⟨hnext, hends.contents_ok, hends.settled⟩
  failed hbehind hstep := by
    obtain ⟨hnext, hends⟩ := applyEntry_ends hbehind hstep
    exact ⟨hnext, hends.contents_error⟩
  settled_ok io hbehind hsettled :=
    ⟨_, Prod.ext rfl (applyEntry_settled hbehind.1 hsettled fileAssets io)⟩
  settled_keeps hbehind hstep hsettled :=
    hsettled.keeps (applyEntry_ends hbehind hstep).2.keeps
  stuck_fails hbehind hstuck hstep := (applyEntry_ends hbehind hstep).2.not_stuck hstuck
  stuck_keeps hbehind hstep hstuck := (applyEntry_ends hbehind hstep).2.stuck_keeps hstuck
  done_add := SeedEntry.present_add
  done_keeps entry hpresent := SeedEntry.add_keeps entry hpresent
  add_done hpresent := if_pos hpresent

theorem apply_eq_ok {io : ℕ → CallIo} {store final : SoloStore} {seed : SeedFile}
    {summary : ApplySummary} :
    apply rt io store seed = (final, .ok summary) ↔
      ∃ founds, runEach (applyEntry rt seed.assetIds) io 0 seed.entries store =
          (final, .ok founds) ∧ founds.foldl ApplySummary.count ⟨0, 0, 0⟩ = summary := by
  rw [apply]
  rcases runEach (applyEntry rt seed.assetIds) io 0 seed.entries store with
    ⟨last, err | founds⟩ <;> simp

theorem foldl_count_existing (assets : List SeedAsset) (summary : ApplySummary) :
    (assets.map fun asset => SeedEntry.again (.asset asset)).foldl ApplySummary.count summary =
      { summary with assetsExisting := summary.assetsExisting + assets.length } := by
  induction assets generalizing summary with
  | nil => rfl
  | cons asset assets ih =>
      rw [List.map_cons, List.foldl_cons, ih]
      simp only [SeedEntry.again, ApplySummary.count, List.length_cons, Nat.add_assoc,
        Nat.add_comm 1]

theorem foldl_count_accounts (accounts : List SeedAccount) (summary : ApplySummary) :
    (accounts.map fun account => SeedEntry.again (.account account)).foldl ApplySummary.count
      summary = { summary with accountsEnsured := summary.accountsEnsured + accounts.length } := by
  induction accounts generalizing summary with
  | nil => rfl
  | cons account accounts ih =>
      rw [List.map_cons, List.foldl_cons, ih]
      simp only [SeedEntry.again, ApplySummary.count, List.length_cons, Nat.add_assoc,
        Nat.add_comm 1]

/-- The summary when everything is found. -/
theorem foldl_count_again (seed : SeedFile) :
    (seed.entries.map SeedEntry.again).foldl ApplySummary.count ⟨0, 0, 0⟩ =
      ⟨0, seed.assets.length, seed.accounts.length⟩ := by
  have hassets := foldl_count_existing seed.assets ⟨0, 0, 0⟩
  have haccounts := foldl_count_accounts seed.accounts ⟨0, seed.assets.length, 0⟩
  rw [Nat.zero_add] at hassets haccounts
  rw [SeedFile.entries, List.map_append, List.map_map, List.map_map, List.foldl_append]
  exact (congrArg (fun summary => (seed.accounts.map fun account =>
    SeedEntry.again (.account account)).foldl ApplySummary.count summary) hassets).trans haccounts

/-- The entries of a file that a store does not have. -/
def SeedFile.missing (rt : Runtime) (seed : SeedFile) (store : SoloStore) : List SeedEntry :=
  seed.entries.filter fun entry => ¬ entry.Present (contents rt store)

/-- The later store has what the earlier one has and the missing entries, and
in each book one event more for each of them. -/
structure SeedFile.SetsUp (rt : Runtime) (seed : SeedFile) (store later : SoloStore) : Prop where
  contents : contents rt later =
    (seed.missing rt store).foldl (fun seen entry => entry.insert seen) (contents rt store)
  events : ∀ book, later.ledgerEvents rt book = store.ledgerEvents rt book ++
    ((seed.missing rt store).filter fun entry => entry.book = book).map SeedEntry.event
  once : ((seed.missing rt store).map SeedEntry.event).Nodup

/-- A file that has been applied is applied again, whatever happens around the
calls: everything is found, and nothing is changed. -/
def SeedFile.Idempotent (rt : Runtime) (seed : SeedFile) (store : SoloStore) : Prop :=
  ∀ io final summary, apply rt io store seed = (final, .ok summary) → ∀ io', ∃ later,
    apply rt io' final seed =
        (later, .ok ⟨0, seed.assets.length, seed.accounts.length⟩) ∧
      later.registry = final.registry ∧
      ∀ book, later.events rt book = final.events rt book ∧
        later.accounts book = final.accounts book

/-- A file that is applied behind attempts, each of them at some of its first
entries, sets up what was missing before them, and what a single run sets up. -/
def SeedFile.Resumable (rt : Runtime) (seed : SeedFile) (store : SoloStore) : Prop :=
  ∀ reached, Attempts (applyEntry rt seed.assetIds) seed.entries store reached →
    ∀ io later summary, apply rt io reached seed = (later, .ok summary) →
      seed.SetsUp rt store later ∧
        ∀ io final summary, apply rt io store seed = (final, .ok summary) →
          later.registry = final.registry ∧
            ∀ book, later.accounts book = final.accounts book ∧
              later.ledgerEvents rt book = final.ledgerEvents rt book

theorem idempotent_of_inv {store : SoloStore} (hinv : store.Inv rt) (seed : SeedFile) :
    seed.Idempotent rt store := by
  intro io final summary happly io'
  obtain ⟨founds, hrun, -⟩ := apply_eq_ok.1 happly
  have hstore : Behind rt store store := ⟨hinv, fun _ => List.prefix_rfl⟩
  have hfirst := applyEntry_repeatable rt store seed.assetIds
  obtain ⟨later, hlater, hsame⟩ := hfirst.again_ok hstore hrun io' 0
  refine ⟨later, apply_eq_ok.2 ⟨_, hlater, foldl_count_again seed⟩,
    congrArg Contents.registry hsame,
    fun book => ⟨?_, congrFun (congrArg Contents.accounts hsame) book⟩⟩
  -- the events of the first run are still there, and they are as many
  have hfinal : Behind rt final final :=
    ⟨(hfirst.runEach_ok hstore hrun).1.1, fun _ => List.prefix_rfl⟩
  have hsecond := applyEntry_repeatable rt final seed.assetIds
  have hgrows := (hsecond.runEach_ok hfinal hlater).1.2 book
  have hevents : later.ledgerEvents rt book = final.ledgerEvents rt book :=
    congrFun (congrArg Contents.events hsame) book
  have hlength := congrArg List.length hevents
  rw [SoloStore.ledgerEvents, SoloStore.ledgerEvents, List.length_map, List.length_map] at hlength
  exact (hgrows.eq_of_length hlength.symm).symm

theorem setsUp_of_contents {seed : SeedFile} (hvalid : validate seed = .ok ())
    {store later : SoloStore} (hcontents : contents rt later =
      seed.entries.foldl (fun seen entry => entry.add seen) (contents rt store)) :
    seed.SetsUp rt store later := by
  have hnames := names_nodup hvalid
  have hmissing := SeedEntry.foldl_add hnames (contents rt store)
  refine ⟨hcontents.trans hmissing, fun book => ?_, ?_⟩
  · have hevents := congrFun (congrArg Contents.events (hcontents.trans hmissing)) book
    rw [SeedEntry.events_foldl_insert] at hevents
    exact hevents
  · have hlisted : ((seed.missing rt store).map SeedEntry.name).Nodup :=
      hnames.sublist (List.filter_sublist.map _)
    rw [List.Nodup, List.pairwise_map] at hlisted ⊢
    exact hlisted.imp fun hname hevent => hname (SeedEntry.name_of_event hevent)

theorem resumable_of_inv {seed : SeedFile} (hvalid : validate seed = .ok ()) {store : SoloStore}
    (hinv : store.Inv rt) : seed.Resumable rt store := by
  intro reached hattempts io later summary happly
  obtain ⟨founds, hrun, -⟩ := apply_eq_ok.1 happly
  have hstore : Behind rt store store := ⟨hinv, fun _ => List.prefix_rfl⟩
  have hrep := applyEntry_repeatable rt store seed.assetIds
  have hlater := (hrep.resumed hstore hattempts hrun).2
  refine ⟨setsUp_of_contents hvalid hlater, fun io' final summary' hsingle => ?_⟩
  obtain ⟨founds', hrun', -⟩ := apply_eq_ok.1 hsingle
  have hsame : contents rt later = contents rt final :=
    hlater.trans (hrep.runEach_ok hstore hrun').2.1.symm
  exact ⟨congrArg Contents.registry hsame, fun book =>
    ⟨congrFun (congrArg Contents.accounts hsame) book,
      congrFun (congrArg Contents.events hsame) book⟩⟩

/-- Applying a validated file is idempotent and resumable, from every store
whose books have come about through runs. -/
theorem apply_idempotent_resumable (rt : Runtime) {seed : SeedFile}
    (hvalid : validate seed = .ok ()) {store : SoloStore} (hstore : store.Reachable rt) :
    seed.Idempotent rt store ∧ seed.Resumable rt store :=
  ⟨idempotent_of_inv hstore.inv seed, resumable_of_inv hvalid hstore.inv⟩

namespace FirstBoot

def seed : SeedFile :=
  ⟨[⟨"USD", .fiat, 2, "US Dollar"⟩], [⟨"main", "cash", "USD", .asset, none, none⟩]⟩

/-- A store on an empty directory. -/
def store : SoloStore :=
  ⟨⟨100000, 0, 1000⟩, false, ∅, ∅⟩

/-- Nothing goes wrong around a call. -/
def calm : CallIo :=
  ⟨.ok .ok, [], 1, 1, .ok, .ok, none⟩

theorem reachable : store.Reachable binaryRuntime := by
  intro book run hrun
  cases hrun

end FirstBoot

theorem apply_idempotent_resumable_firstBoot :
    FirstBoot.seed.Idempotent binaryRuntime FirstBoot.store ∧
      FirstBoot.seed.Resumable binaryRuntime FirstBoot.store :=
  apply_idempotent_resumable binaryRuntime (by decide +kernel) FirstBoot.reachable

example : (apply binaryRuntime (fun _ => FirstBoot.calm) FirstBoot.store FirstBoot.seed).2 =
    .ok ⟨1, 0, 1⟩ := by
  decide +kernel

end Talea.Talead
