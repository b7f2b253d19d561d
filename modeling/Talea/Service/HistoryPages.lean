import Talea.Log.AccountReads
import Talea.Service.Post

/-!
# Walking a history

The service cuts an account's history into pages.  The store limits a page by
distinct seqs, and the service ends the walk at a page with fewer rows than the
limit.  Both count in the same direction: a page that leaves anything out has a
row for each seq at least, so that a short page is the last one.
-/

namespace Talea.Service

open Talea.Log

/-- The service's error for an error of the store. -/
def mapStoreErr : StoreError → ApiError
  | .constraintViolation account minBalance wouldBe =>
      .constraintViolation account.toKey minBalance wouldBe
  | .unknownAccount account => .unknownAccount account.toKey
  | .unknownAsset asset => .unknownAsset asset.id
  | .assetMismatch account accountAsset asset =>
      .assetMismatch account.toKey accountAsset.id asset.id
  | .alreadyExists what => .alreadyExists what
  | .invalidBook book => invalid "book" ("book " ++ book.name.quote ++ " is reserved")
  | .saturated => .overloaded
  | .io _ => .internal "storage backend error"

structure Page where
  afterSeq : Option Int
  limit : UInt32

/-- A row of a history; the amount is given by its two fields. -/
structure PostingView where
  seq : Int
  txId : String
  account : String
  minor : Int
  asset : String
  direction : Direction
  at' : Int
  deriving DecidableEq

structure Paged (α : Type) where
  items : List α
  next : Option Int
  deriving DecidableEq

/-- The hyphenated text of a UUID: 32 hexadecimal digits in five groups. -/
def TxId.text (txid : TxId) : String :=
  let digits := Nat.toDigits 16 txid.uuid
  let padded := List.replicate (32 - digits.length) '0' ++ digits
  let group := fun start len => (padded.drop start).take len
  String.ofList (['-'].intercalate [group 0 8, group 8 4, group 12 4, group 16 4, group 20 12])

def viewOf (record : PostingRecord) : PostingView where
  seq := record.seq
  txId := TxId.text record.txid
  account := record.account.toKey
  minor := record.minor
  asset := record.asset.id
  direction := record.direction
  at' := record.at'

/-- A page of an account's history.  The cursor closes when the page came back
short. -/
def accountHistory (store : StoreView) (book path : String) (page : Page) :
    Except ApiError (Paged PostingView) := do
  let book ← parseBookLax book
  let limit := max 1 (min page.limit.toNat 1000)
  let records ← (Log.accountHistory store ⟨book, path⟩ page.afterSeq limit).mapError mapStoreErr
  let next := if records.length < limit then none else records.getLast?.map PostingRecord.seq
  .ok ⟨records.map viewOf, next⟩

/-- Follow the cursor from page to page, `fuel` pages at most; `limits` has the
limit of each page. -/
def walk (store : StoreView) (book path : String) (limits : ℕ → UInt32) :
    ℕ → ℕ → Option Int → Except ApiError (Option (List (Paged PostingView)))
  | 0, _, _ => .ok none
  | fuel + 1, number, cursor => do
      let page ← accountHistory store book path ⟨cursor, limits number⟩
      match page.next with
      | none => .ok (some [page])
      | some seq =>
          let rest ← walk store book path limits fuel (number + 1) (some seq)
          .ok (rest.map (page :: ·))

/-! ## One page -/

/-- What is not taken comes behind all that is, and there is a row for each of
the seqs that were counted. -/
theorem takeSeqs_split {limit distinct : ℕ} {lastSeq : Int} {entries : List PostingEntry}
    (hsorted : entries.Pairwise fun left right => left.seq ≤ right.seq)
    (hlast : ∀ entry ∈ entries, lastSeq ≤ entry.seq) (hle : distinct ≤ limit) :
    ∃ rest, entries = takeSeqs limit distinct lastSeq entries ++ rest ∧
      (rest = [] ∨ limit ≤ distinct + (takeSeqs limit distinct lastSeq entries).length ∧
        ∀ later ∈ rest, lastSeq < later.seq ∧
          ∀ entry ∈ takeSeqs limit distinct lastSeq entries, entry.seq < later.seq) := by
  induction entries generalizing distinct lastSeq with
  | nil => exact ⟨[], rfl, Or.inl rfl⟩
  | cons entry entries ih =>
      obtain ⟨hentry, hrest⟩ := List.pairwise_cons.1 hsorted
      obtain ⟨hhere, hlater⟩ := List.forall_mem_cons.1 hlast
      rw [takeSeqs]
      by_cases hnew : entry.seq ≠ lastSeq
      · rw [if_pos hnew]
        by_cases hfull : limit ≤ distinct
        · rw [if_pos hfull]
          refine ⟨entry :: entries, rfl, Or.inr ⟨by simpa using hfull, fun later hmem => ?_⟩⟩
          have hge : entry.seq ≤ later.seq := by
            rcases List.mem_cons.1 hmem with rfl | hin
            · exact le_rfl
            · exact hentry later hin
          exact ⟨by omega, by simp⟩
        · rw [if_neg hfull]
          obtain ⟨rest, hsplit, hcut⟩ := ih hrest hentry (by omega : distinct + 1 ≤ limit)
          refine ⟨rest, by rw [List.cons_append, ← hsplit], hcut.imp_right fun hmore => ?_⟩
          refine ⟨by rw [List.length_cons]; omega, fun later hmem => ?_⟩
          obtain ⟨habove, hpage⟩ := hmore.2 later hmem
          exact ⟨by omega, List.forall_mem_cons.2 ⟨habove, hpage⟩⟩
      · rw [if_neg hnew]
        obtain ⟨rest, hsplit, hcut⟩ := ih hrest hlater hle
        refine ⟨rest, by rw [List.cons_append, ← hsplit], hcut.imp_right fun hmore => ?_⟩
        refine ⟨by rw [List.length_cons]; omega, fun later hmem => ?_⟩
        obtain ⟨habove, hpage⟩ := hmore.2 later hmem
        exact ⟨habove, List.forall_mem_cons.2 ⟨by omega, hpage⟩⟩

/-- The entries behind a cursor. -/
def entriesAfter (acct : AccountState) (cursor : Option Int) : List PostingEntry :=
  acct.postings.flat.dropWhile fun entry => entry.seq ≤ cursor.getD 0

/-- Histories that can be walked: the seqs start at one and do not go down. -/
structure SeqsSorted (entries : List PostingEntry) : Prop where
  positive : ∀ entry ∈ entries, 0 < entry.seq
  sorted : entries.Pairwise fun left right => left.seq ≤ right.seq

theorem SeqsSorted.partitioned {entries : List PostingEntry} (hsorted : SeqsSorted entries)
    (after : Int) : Partitioned (fun entry : PostingEntry => entry.seq ≤ after) entries := by
  refine hsorted.sorted.imp fun {left right} hle hright => ?_
  simp only [decide_eq_true_eq] at hright ⊢
  omega

theorem iterFrom_partitionPointSeq {acct : AccountState}
    (hsorted : SeqsSorted acct.postings.flat) (cursor : Option Int) :
    acct.postings.iterFrom (acct.postings.partitionPointSeq (cursor.getD 0)) =
      entriesAfter acct cursor := by
  have hsplit := List.takeWhile_append_dropWhile (l := acct.postings.flat)
    (p := fun entry : PostingEntry => decide (entry.seq ≤ cursor.getD 0))
  rw [PostingIndex.iterFrom_eq, PostingIndex.partitionPointSeq,
    PostingIndex.partitionPointBy_eq _ (hsorted.partitioned _), entriesAfter]
  conv_lhs => rw [← hsplit, hsplit]
  exact (congrArg (List.drop _) hsplit.symm).trans List.drop_left

theorem dropWhile_append_of_bounds {left right : List PostingEntry} {bound : Int}
    (hleft : ∀ entry ∈ left, entry.seq ≤ bound) (hright : ∀ entry ∈ right, bound < entry.seq) :
    (left ++ right).dropWhile (fun entry => entry.seq ≤ bound) = right := by
  rw [List.dropWhile_append_of_pos fun entry hentry => by simpa using hleft entry hentry]
  cases right with
  | nil => rfl
  | cons entry right =>
      have hentry := hright entry List.mem_cons_self
      exact List.dropWhile_cons_of_neg (by simpa using hentry)

/-- What a page shows of the entries behind the cursor, and what it leaves to
the pages behind it. -/
theorem page_split {acct : AccountState} (hsorted : SeqsSorted acct.postings.flat)
    (account : AccountId) (cursor : Option Int) (limit : ℕ) :
    ∃ taken rest, entriesAfter acct cursor = taken ++ rest ∧
      acct.history account cursor limit = taken.map (acct.record account) ∧
      (∀ entry ∈ taken, ∀ later ∈ rest, entry.seq < later.seq) ∧
      (taken.length < limit → rest = []) ∧
      ∀ last ∈ taken.getLast?, entriesAfter acct (some last.seq) = rest := by
  have hbehind : entriesAfter acct cursor <:+ acct.postings.flat := List.dropWhile_suffix _
  obtain ⟨before, hflat⟩ := hbehind
  have hmem : ∀ entry ∈ entriesAfter acct cursor, entry ∈ acct.postings.flat :=
    fun entry hentry => hflat ▸ List.mem_append_right before hentry
  have hafter : (entriesAfter acct cursor).Pairwise fun left right => left.seq ≤ right.seq := by
    have hall := hsorted.sorted
    rw [← hflat] at hall
    exact (List.pairwise_append.1 hall).2.1
  obtain ⟨rest, hsplit, hcut⟩ := takeSeqs_split hafter
    (fun entry hentry => (hsorted.positive entry (hmem entry hentry)).le) (Nat.zero_le limit)
  refine ⟨_, rest, hsplit, ?_, ?_, ?_, ?_⟩
  · rw [AccountState.history, iterFrom_partitionPointSeq hsorted]
  · intro entry hentry later hlater
    rcases hcut with rfl | ⟨-, hbounds⟩
    · cases hlater
    · exact (hbounds later hlater).2 entry hentry
  · intro hshort
    rcases hcut with hnone | ⟨hrows, -⟩
    · exact hnone
    · omega
  · intro last hlast
    have hin := List.mem_of_getLast? hlast
    -- everything up to the last row is at or below its seq
    have hupto : ∀ entry ∈ before ++ takeSeqs limit 0 0 (entriesAfter acct cursor),
        entry.seq ≤ last.seq := by
      obtain ⟨front, hfront⟩ := List.getLast?_eq_some_iff.1 hlast
      have hall := hsorted.sorted
      rw [← hflat, hsplit, ← List.append_assoc] at hall
      have hleft := (List.pairwise_append.1 hall).1
      rw [hfront, ← List.append_assoc] at hleft ⊢
      intro entry hentry
      rcases List.mem_append.1 hentry with hfirst | hself
      · exact (List.pairwise_append.1 hleft).2.2 entry hfirst last (List.mem_singleton_self last)
      · rw [List.mem_singleton.1 hself]
    have habove : ∀ later ∈ rest, last.seq < later.seq := by
      intro later hlater
      rcases hcut with rfl | ⟨-, hbounds⟩
      · cases hlater
      · exact (hbounds later hlater).2 last hin
    rw [entriesAfter, ← hflat]
    conv_lhs => rw [hsplit, ← List.append_assoc]
    exact dropWhile_append_of_bounds hupto habove

/-! ## The whole walk -/

section Walk

variable {store : StoreView} {book path : String} {acct : AccountState}

/-- The limit of a page, between one and a thousand. -/
theorem accountHistory_of_found (hbook : book ≠ "")
    (hfound : store.findAccount ⟨⟨book⟩, path⟩ = .ok acct) (cursor : Option Int)
    (limit : UInt32) :
    ∃ count, 0 < count ∧ accountHistory store book path ⟨cursor, limit⟩ =
      let records := acct.history ⟨⟨book⟩, path⟩ cursor count
      .ok ⟨records.map viewOf,
        if records.length < count then none else records.getLast?.map PostingRecord.seq⟩ := by
  have hpos : 0 < max 1 (min limit.toNat 1000) := lt_max_of_lt_left Nat.one_pos
  have hstore : Log.accountHistory store ⟨⟨book⟩, path⟩ cursor (max 1 (min limit.toNat 1000)) =
      .ok (acct.history ⟨⟨book⟩, path⟩ cursor (max 1 (min limit.toNat 1000))) := by
    unfold Log.accountHistory
    rw [if_neg hpos.ne', hfound]
    rfl
  refine ⟨_, hpos, ?_⟩
  rw [accountHistory, parseBookLax, if_neg hbook]
  change Except.bind (Except.mapError mapStoreErr _) _ = _
  rw [hstore]
  rfl

/-- The row of an entry. -/
def entryView (acct : AccountState) (account : AccountId) (entry : PostingEntry) : PostingView :=
  viewOf (acct.record account entry)

/-- A walk from a cursor on shows every entry behind it, and no seq on two
pages. -/
theorem walk_eq (hbook : book ≠ "") (hfound : store.findAccount ⟨⟨book⟩, path⟩ = .ok acct)
    (hsorted : SeqsSorted acct.postings.flat) (limits : ℕ → UInt32) (fuel number : ℕ)
    (cursor : Option Int) (hfuel : (entriesAfter acct cursor).length < fuel) :
    ∃ pages, walk store book path limits fuel number cursor = .ok (some pages) ∧
      pages.flatMap Paged.items =
        (entriesAfter acct cursor).map (entryView acct ⟨⟨book⟩, path⟩) ∧
      pages.Pairwise fun earlier later =>
        ∀ posting ∈ earlier.items, ∀ other ∈ later.items, posting.seq < other.seq := by
  induction fuel generalizing number cursor with
  | zero => exact absurd hfuel (Nat.not_lt_zero _)
  | succ fuel ih =>
      obtain ⟨count, hpos, hpage⟩ := accountHistory_of_found hbook hfound cursor (limits number)
      obtain ⟨taken, rest, hsplit, hhistory, hbelow, hshort, hnext⟩ :=
        page_split hsorted ⟨⟨book⟩, path⟩ cursor count
      have hitems : (taken.map (acct.record ⟨⟨book⟩, path⟩)).map viewOf =
          taken.map (entryView acct ⟨⟨book⟩, path⟩) := List.map_map
      rw [hhistory] at hpage
      dsimp only at hpage
      rw [hitems, List.length_map, List.getLast?_map, Option.map_map] at hpage
      rw [walk, hpage]
      by_cases hless : taken.length < count
      · refine ⟨[_], by rw [if_pos hless]; rfl, ?_, List.pairwise_singleton _ _⟩
        rw [hsplit, hshort hless, List.append_nil]
        simp
      · have hne : taken ≠ [] := by
          rintro rfl
          exact hless hpos
        have hlast := List.getLast?_eq_some_getLast hne
        have hrest := hnext _ hlast
        obtain ⟨pages, hwalk, hshown, hapart⟩ := ih (number + 1)
          (some (taken.getLast hne).seq) (by
            have hlen := congrArg List.length hsplit
            have htaken := List.length_pos_iff.2 hne
            rw [List.length_append] at hlen
            rw [hrest]
            omega)
        rw [hrest] at hshown
        refine ⟨⟨taken.map (entryView acct ⟨⟨book⟩, path⟩), some (taken.getLast hne).seq⟩ :: pages,
          ?_, ?_, List.pairwise_cons.2 ⟨fun page hmem posting hposting other hother => ?_, hapart⟩⟩
        · rw [if_neg hless, hlast]
          change (do
            let rest ← walk store book path limits fuel (number + 1)
              (some (taken.getLast hne).seq)
            Except.ok (rest.map (_ :: ·))) = _
          rw [hwalk]
          rfl
        · rw [List.flatMap_cons, hshown, hsplit, List.map_append]
        · -- a row of a later page is one of the entries that were left out
          obtain ⟨entry, hentry, rfl⟩ := List.mem_map.1 hposting
          have hin := List.mem_flatMap.2 ⟨page, hmem, hother⟩
          rw [hshown] at hin
          obtain ⟨later, hlater, rfl⟩ := List.mem_map.1 hin
          exact hbelow entry hentry later hlater

end Walk

/-! ## The postings of the log -/

/-- The rows of a transaction's postings on one account. -/
def postingViews (key : String) (wire : WireEvent) : List PostingView :=
  match wire.event with
  | .transactionPosted tx => (postingsOn key tx.postings).map fun posting =>
      { seq := wire.seq, txId := TxId.text tx.id, account := posting.account.toKey
        minor := posting.amount.minor, asset := posting.amount.asset.id
        direction := posting.direction, at' := wire.at' }
  | _ => []

theorem map_entryView_entriesFrom {acct : AccountState} {account : AccountId} {seq time : Int}
    {txid : TxId} {raw : Int} {own : List Posting}
    (hown : ∀ posting ∈ own, posting.account.toKey = account.toKey ∧
      posting.amount.asset = acct.account.asset) :
    (entriesFrom seq time txid raw own).map (entryView acct account) =
      own.map fun posting =>
        { seq, txId := TxId.text txid, account := posting.account.toKey
          minor := posting.amount.minor, asset := posting.amount.asset.id
          direction := posting.direction, at' := time } := by
  induction own generalizing raw with
  | nil => rfl
  | cons posting own ih =>
      obtain ⟨⟨hkey, hasset⟩, hrest⟩ := List.forall_mem_cons.1 hown
      rw [entriesFrom, List.map_cons, ih hrest, List.map_cons, hkey, hasset]
      rfl

/-- The rows of an account's history are those of the log. -/
theorem map_entryView_historyFrom {acct : AccountState} {account : AccountId} {raw : Int}
    {events : List WireEvent}
    (hassets : ∀ posting ∈ accountPostings account.toKey events,
      posting.amount.asset = acct.account.asset) :
    (historyFrom account.toKey raw events).map (entryView acct account) =
      events.flatMap (postingViews account.toKey) := by
  induction events generalizing raw with
  | nil => rfl
  | cons wire events ih =>
      rw [accountPostings_cons] at hassets
      obtain ⟨hhere, hlater⟩ := List.forall_mem_append.1 hassets
      have hrest := @ih (raw +
        signedSum (postingsOn account.toKey (LedgerEvent.postings wire.event))) hlater
      rw [List.flatMap_cons, ← hrest]
      obtain ⟨seq, time, event⟩ := wire
      cases event with
      | transactionPosted tx =>
          have hown : ∀ posting ∈ postingsOn account.toKey tx.postings,
              posting.account.toKey = account.toKey ∧
                posting.amount.asset = acct.account.asset := fun posting hposting =>
            ⟨of_decide_eq_true (List.mem_filter.1 hposting).2, hhere posting hposting⟩
          rw [historyFrom, List.map_append, map_entryView_entriesFrom hown]
          rfl
      | assetRegistered asset => simp [historyFrom, postingViews, LedgerEvent.postings, postingsOn]
      | accountOpened account cfg =>
          simp [historyFrom, postingViews, LedgerEvent.postings, postingsOn]

/-- The seqs of a history go up with those of the log. -/
theorem seqsSorted_historyFrom {key : String} {raw : Int} {events : List WireEvent}
    (hnumbered : Numbered 1 events) : SeqsSorted (historyFrom key raw events) where
  positive entry hentry := by
    obtain ⟨wire, hwire, hseq, -⟩ := exists_event_of_mem_historyFrom hentry
    have := (hnumbered.mem_bounds hwire).1
    omega
  sorted := by
    exact pairwise_historyFrom (fun left right => left.1 ≤ right.1) (fun _ => le_rfl)
      hnumbered.pairwise_le

theorem exists_of_existingBook {store : StoreView} {book : String} {state : BookState}
    (hbook : store.existingBook book = .ok (some state)) : book ≠ "" := by
  rintro rfl
  unfold StoreView.existingBook at hbook
  split at hbook
  · cases hbook
  · cases hbook

/-- However the limits are chosen, a walk through the history of an account at
any moment of a book ends, after at most one page more than there are postings.
Its pages show every committed posting of the account once, in the order of the
log, and those of one seq on one page. -/
theorem history_pages_complete (rt : Runtime) (look : BookLook)
    {seen : BookHandle × List WireEvent} (hview : look.view rt = some seen) {store : StoreView}
    {book path : String} (hbook : store.existingBook book = .ok (some seen.1.state))
    (haccount : AccountId.toKey ⟨⟨book⟩, path⟩ ∈ seen.1.state.accounts)
    (limits : ℕ → UInt32) :
    let key := AccountId.toKey ⟨⟨book⟩, path⟩
    ∃ pages, walk store book path limits ((accountPostings key seen.2).length + 1) 0 none =
        .ok (some pages) ∧
      pages.flatMap Paged.items = seen.2.flatMap (postingViews key) ∧
      pages.Pairwise fun earlier later =>
        ∀ posting ∈ earlier.items, ∀ other ∈ later.items, posting.seq < other.seq := by
  intro key
  have htold := BookLook.told_view hview
  obtain ⟨acct, hacct⟩ := Finmap.mem_iff.1 haccount
  have htells := htold.tells.known key acct hacct
  have hfound : store.findAccount ⟨⟨book⟩, path⟩ = .ok acct := by
    rw [StoreView.findAccount, hbook]
    dsimp only
    rw [hacct]
  have hsorted : SeqsSorted acct.postings.flat := by
    rw [htells.flat_eq]
    exact seqsSorted_historyFrom htold.numbered
  have hall : entriesAfter acct none = historyFrom key 0 seen.2 := by
    rw [← htells.flat_eq]
    exact dropWhile_append_of_bounds (List.forall_mem_nil _) hsorted.positive
  obtain ⟨pages, hwalk, hshown, hapart⟩ := walk_eq (exists_of_existingBook hbook) hfound hsorted
    limits ((accountPostings key seen.2).length + 1) 0 none (by
      rw [hall, length_historyFrom]
      exact Nat.lt_succ_self _)
  refine ⟨pages, hwalk, ?_, hapart⟩
  rw [hshown, hall]
  exact map_entryView_historyFrom htells.assets

namespace TwoPages

/-- Two accounts and two payments between them, before the writer of the look. -/
def actions : List Action :=
  [.batch ⟨1, [Payment.account "cash", Payment.account "sales"], .ok, .ok⟩,
    .batch ⟨2, [(.commit (Payment.draft.transaction ⟨1⟩ 2), 2)], .ok, .ok⟩,
    .batch ⟨3, [(.commit
      ({ Payment.draft with idempotencyKey := "again" }.transaction ⟨2⟩ 3), 3)], .ok, .ok⟩]

theorem looks_le : (0 : ℕ) ≤ 0 := le_rfl

def look : BookLook :=
  ⟨Payment.opts, .ok, .interrupted actions, [], 0, 0, looks_le⟩

def seen : BookHandle × List WireEvent :=
  (look.view binaryRuntime).get (by decide +kernel)

def store : StoreView :=
  ⟨false, (∅ : HashMap String BookState).insert "main" seen.1.state⟩

end TwoPages

theorem history_pages_complete_cash :
    let key := AccountId.toKey ⟨⟨"main"⟩, "cash"⟩
    ∃ pages, walk TwoPages.store "main" "cash" (fun _ => 1)
        ((accountPostings key TwoPages.seen.2).length + 1) 0 none = .ok (some pages) ∧
      pages.flatMap Paged.items = TwoPages.seen.2.flatMap (postingViews key) ∧
      pages.Pairwise fun earlier later =>
        ∀ posting ∈ earlier.items, ∀ other ∈ later.items, posting.seq < other.seq :=
  history_pages_complete binaryRuntime TwoPages.look (Option.some_get _).symm
    (by
      have hvalid : validateBookName "main" = true := by decide +kernel
      rw [StoreView.existingBook, TwoPages.store, if_neg (by decide), if_pos hvalid]
      exact congrArg Except.ok (Finmap.lookup_insert _))
    (by decide +kernel) fun _ => 1

end Talea.Service
