import Talea.Core.DoubleEntry
import Talea.Lib.ExceptFold

/-!
# What `post` lets through

The service checks a draft before it submits it: the names are there, every
amount is positive, the sides of each asset fit an `i64` and agree.  A draft
that passes becomes a double-entry transaction.
-/

namespace Talea.Service

inductive ApiError
  | unbalanced (asset : String) (debit credit : Int)
  | assetMismatch (account accountAsset asset : String)
  | invalidAmount (amount : Int)
  | unknownAsset (asset : String)
  | unknownAccount (account : String)
  | constraintViolation (account : String) (minBalance wouldBe : Int)
  | alreadyExists (what : String)
  | invalidDraft (field reason : String)
  | notFound (what : String)
  | transport (message : String)
  | unauthorized
  | forbidden (book : String)
  | overloaded
  | timeout
  | internal (message : String)
  deriving DecidableEq

structure WireAmount where
  minor : Int
  asset : String
  inRange : I64.InRange minor

structure PostingDraft where
  account : String
  amount : WireAmount
  direction : Direction

structure TransactionDraft where
  book : String
  idempotencyKey : String
  postings : List PostingDraft
  externalRefs : List ExternalRef
  metadata : String
  occurredAt : Option Int

def invalid (field reason : String) : ApiError :=
  .invalidDraft field reason

def parseBookLax (name : String) : Except ApiError Book :=
  if name = "" then .error (invalid "book" "must not be empty")
  else .ok ⟨name⟩

/-- Writes reject reserved books. -/
def parseBook (name : String) : Except ApiError Book := do
  let book ← parseBookLax name
  if book.isReserved then .error (invalid "book" "names starting with '_' are reserved")
  else .ok book

/-- The posting a draft of it becomes. -/
def PostingDraft.posting (book : Book) (draft : PostingDraft) : Posting where
  account := ⟨book, draft.account⟩
  amount := ⟨draft.amount.minor, ⟨draft.amount.asset⟩, draft.amount.inRange⟩
  direction := draft.direction

/-- Debits and credits by asset. -/
abbrev SideTotals := HashMap String (Int × Int)

/-- The totals with a posting added to its side, unless that overflows. -/
def SideTotals.add (totals : SideTotals) (draft : PostingDraft) : Option SideTotals :=
  let (debits, credits) := (totals.lookup draft.amount.asset).getD (0, 0)
  let sides :=
    match draft.direction with
    | .debit => (I64.checkedAdd debits draft.amount.minor).map fun sum => (sum, credits)
    | .credit => (I64.checkedAdd credits draft.amount.minor).map fun sum => (debits, sum)
  sides.map fun sides => totals.insert draft.amount.asset sides

/-- One turn of the loop over the postings. -/
def checkPosting (book : Book) (acc : SideTotals × List Posting) (draft : PostingDraft) :
    Except ApiError (SideTotals × List Posting) :=
  if draft.amount.minor ≤ 0 then .error (.invalidAmount draft.amount.minor)
  else if draft.account = "" then
    .error (invalid "postings.account" "must not be empty")
  else
    match acc.1.add draft with
    | none => .error (.invalidAmount draft.amount.minor)
    | some totals => .ok (totals, acc.2 ++ [draft.posting book])

/-- The two sides of an asset agree. -/
def SideTotals.checkAsset (totals : SideTotals) (asset : String) : Except ApiError Unit :=
  let (debit, credit) := (totals.lookup asset).getD (0, 0)
  if debit ≠ credit then .error (.unbalanced asset debit credit) else .ok ()

/-- What `post` does before it submits: the draft is checked, and becomes a
transaction with a fresh id.  The assets are compared in the order of the
postings (the source iterates over a hash map). -/
def transactionOf (draft : TransactionDraft) (id : TxId) (now : Int) :
    Except ApiError Transaction := do
  let book ← parseBook draft.book
  if draft.idempotencyKey = "" then
    .error (invalid "idempotency_key" "must not be empty")
  else if draft.postings = [] then
    .error (invalid "postings" "must not be empty")
  else
    let (totals, postings) ← draft.postings.foldlM (checkPosting book) (∅, [])
    draft.postings.forM fun posting => totals.checkAsset posting.amount.asset
    .ok
      { id, book, postings
        idempotencyKey := ⟨draft.idempotencyKey⟩
        externalRefs := draft.externalRefs
        metadata := draft.metadata
        occurredAt := draft.occurredAt.getD now }

/-! ## The drafts that pass -/

/-- The transaction a draft stands for. -/
def TransactionDraft.transaction (draft : TransactionDraft) (id : TxId) (now : Int) :
    Transaction where
  id := id
  book := ⟨draft.book⟩
  postings := draft.postings.map (PostingDraft.posting ⟨draft.book⟩)
  idempotencyKey := ⟨draft.idempotencyKey⟩
  externalRefs := draft.externalRefs
  metadata := draft.metadata
  occurredAt := draft.occurredAt.getD now

/-- The totals are those of the postings. -/
def SideTotals.Shows (totals : SideTotals) (postings : List Posting) : Prop :=
  ∀ asset : AssetId, (totals.lookup asset.id).getD (0, 0) =
    (sideTotal .debit asset postings, sideTotal .credit asset postings)

theorem SideTotals.Shows.nil : SideTotals.Shows ∅ [] := fun _ => rfl

section Add

variable {book : Book} {totals : SideTotals} {postings : List Posting} {draft : PostingDraft}

theorem sideTotal_concat (direction : Direction) (asset : AssetId) :
    sideTotal direction asset (postings ++ [draft.posting book]) =
      sideTotal direction asset postings +
        if draft.direction = direction ∧ draft.amount.asset = asset.id then draft.amount.minor
        else 0 := by
  have hasset : (draft.posting book).amount.asset = asset ↔ draft.amount.asset = asset.id := by
    cases asset
    simp [PostingDraft.posting]
  rw [sideTotal_append, sideTotal_cons, sideTotal_nil, add_zero, Posting.onSide]
  simp only [hasset]
  rfl

/-- Adding a posting keeps the totals, and overflows exactly when the total on
its side does. -/
theorem SideTotals.Shows.add (hshows : totals.Shows postings) (book : Book)
    (draft : PostingDraft) :
    match totals.add draft with
    | none => ¬ I64.InRange (sideTotal draft.direction ⟨draft.amount.asset⟩
        (postings ++ [draft.posting book]))
    | some totals' => totals'.Shows (postings ++ [draft.posting book]) ∧
        I64.InRange (sideTotal draft.direction ⟨draft.amount.asset⟩
          (postings ++ [draft.posting book])) := by
  have hsides := hshows ⟨draft.amount.asset⟩
  -- the register of the posting's own side
  have hown : ∀ sides : Int × Int, (∀ direction, sideTotal direction ⟨draft.amount.asset⟩
      (postings ++ [draft.posting book]) = match direction with
        | .debit => sides.1
        | .credit => sides.2) →
      SideTotals.Shows (totals.insert draft.amount.asset sides)
        (postings ++ [draft.posting book]) := by
    intro sides hnew asset
    rw [HashMap.lookup_insert_ite]
    by_cases hsame : asset.id = draft.amount.asset
    · obtain rfl : asset = ⟨draft.amount.asset⟩ := by
        cases asset
        exact congrArg AssetId.mk hsame
      rw [if_pos rfl, Option.getD_some, hnew .debit, hnew .credit]
    · rw [if_neg hsame, hshows asset, sideTotal_concat, sideTotal_concat,
        if_neg fun h => hsame h.2.symm, if_neg fun h => hsame h.2.symm, add_zero, add_zero]
  unfold SideTotals.add
  rw [hsides]
  dsimp only
  rw [sideTotal_concat, if_pos ⟨rfl, rfl⟩]
  cases hdirection : draft.direction with
  | debit =>
      dsimp only
      unfold I64.checkedAdd
      cases hchecked : I64.checked (sideTotal .debit ⟨draft.amount.asset⟩ postings +
          draft.amount.minor) with
      | none => exact I64.checked_eq_none.1 hchecked
      | some sum =>
          obtain ⟨hrange, rfl⟩ := I64.checked_eq_some.1 hchecked
          refine ⟨hown _ fun direction => ?_, hrange⟩
          rw [sideTotal_concat, hdirection]
          cases direction <;> simp
  | credit =>
      dsimp only
      unfold I64.checkedAdd
      cases hchecked : I64.checked (sideTotal .credit ⟨draft.amount.asset⟩ postings +
          draft.amount.minor) with
      | none => exact I64.checked_eq_none.1 hchecked
      | some sum =>
          obtain ⟨hrange, rfl⟩ := I64.checked_eq_some.1 hchecked
          refine ⟨hown _ fun direction => ?_, hrange⟩
          rw [sideTotal_concat, hdirection]
          cases direction <;> simp

end Add

/-- The amount is positive and the account has a name. -/
def PostingDraft.WellFormed (draft : PostingDraft) : Prop :=
  0 < draft.amount.minor ∧ draft.account ≠ ""

/-- The totals of both sides of every asset fit an `i64`. -/
def SidesFit (postings : List Posting) : Prop :=
  ∀ direction asset, I64.InRange (sideTotal direction asset postings)

section Loop

variable {book : Book} {totals : SideTotals} {postings : List Posting}

theorem checkPosting_eq_ok {draft : PostingDraft} {next : SideTotals × List Posting} :
    checkPosting book (totals, postings) draft = .ok next ↔
      draft.WellFormed ∧ ∃ totals', totals.add draft = some totals' ∧
        next = (totals', postings ++ [draft.posting book]) := by
  unfold checkPosting PostingDraft.WellFormed
  by_cases hamount : draft.amount.minor ≤ 0
  · simp [hamount, not_lt.2 hamount]
  by_cases haccount : draft.account = ""
  · simp [hamount, haccount]
  rw [if_neg hamount, if_neg haccount]
  cases totals.add draft with
  | none => simp
  | some totals' => simp [not_le.1 hamount, haccount, eq_comm]

theorem SidesFit.concat (hfit : SidesFit postings) {draft : PostingDraft}
    (hown : I64.InRange (sideTotal draft.direction ⟨draft.amount.asset⟩
      (postings ++ [draft.posting book]))) : SidesFit (postings ++ [draft.posting book]) := by
  intro direction asset
  by_cases hsame : draft.direction = direction ∧ draft.amount.asset = asset.id
  · obtain ⟨rfl, hasset⟩ := hsame
    obtain rfl : asset = ⟨draft.amount.asset⟩ := by
      cases asset
      exact congrArg AssetId.mk hasset.symm
    exact hown
  · rw [sideTotal_concat, if_neg hsame, add_zero]
    exact hfit direction asset

/-- What the loop has found when it ends. -/
theorem foldlM_checkPosting {drafts : List PostingDraft} {result : SideTotals × List Posting}
    (hshows : totals.Shows postings) (hfit : SidesFit postings)
    (hfold : drafts.foldlM (checkPosting book) (totals, postings) = .ok result) :
    result.2 = postings ++ drafts.map (PostingDraft.posting book) ∧
      result.1.Shows result.2 ∧ SidesFit result.2 ∧ ∀ draft ∈ drafts, draft.WellFormed := by
  induction drafts generalizing totals postings with
  | nil =>
      cases hfold
      exact ⟨(List.append_nil _).symm, hshows, hfit, by simp⟩
  | cons draft drafts ih =>
      rw [List.foldlM_cons, Except.bind_eq_ok] at hfold
      obtain ⟨next, hnext, hrest⟩ := hfold
      obtain ⟨hdraft, totals', hadd, rfl⟩ := checkPosting_eq_ok.1 hnext
      have hstep := hshows.add book draft
      rw [hadd] at hstep
      obtain ⟨hpostings, hshows', hfit', hdrafts⟩ := ih hstep.1 (hfit.concat hstep.2) hrest
      refine ⟨?_, hshows', hfit', List.forall_mem_cons.2 ⟨hdraft, hdrafts⟩⟩
      rw [hpostings, List.append_assoc, List.map_cons]
      rfl

theorem sideTotal_le_append (direction : Direction) (asset : AssetId) {more : List Posting}
    (hmore : ∀ posting ∈ more, 0 ≤ posting.amount.minor) :
    sideTotal direction asset postings ≤ sideTotal direction asset (postings ++ more) := by
  have := sideTotal_nonneg direction asset hmore
  rw [sideTotal_append]
  omega

/-- The loop ends where the postings are well formed and their totals fit: on
the way there the totals are no greater. -/
theorem exists_foldlM_checkPosting {drafts : List PostingDraft} (hshows : totals.Shows postings)
    (hamounts : ∀ posting ∈ postings, 0 ≤ posting.amount.minor)
    (hdrafts : ∀ draft ∈ drafts, draft.WellFormed)
    (hfit : SidesFit (postings ++ drafts.map (PostingDraft.posting book))) :
    ∃ result, drafts.foldlM (checkPosting book) (totals, postings) = .ok result := by
  induction drafts generalizing totals postings with
  | nil => exact ⟨_, rfl⟩
  | cons draft drafts ih =>
      obtain ⟨hdraft, hlater⟩ := List.forall_mem_cons.1 hdrafts
      rw [List.map_cons, List.append_cons] at hfit
      have hamounts' : ∀ posting ∈ postings ++ [draft.posting book],
          0 ≤ posting.amount.minor := by
        intro posting hposting
        rcases List.mem_append.1 hposting with hold | hnew
        · exact hamounts posting hold
        · rw [List.mem_singleton.1 hnew]
          exact hdraft.1.le
      have hpositive : ∀ posting ∈ drafts.map (PostingDraft.posting book),
          0 ≤ posting.amount.minor := by
        intro posting hposting
        obtain ⟨other, hother, rfl⟩ := List.mem_map.1 hposting
        exact (hlater other hother).1.le
      have hown : I64.InRange (sideTotal draft.direction ⟨draft.amount.asset⟩
          (postings ++ [draft.posting book])) := by
        have hupper := (hfit draft.direction ⟨draft.amount.asset⟩).2
        have hle : sideTotal draft.direction ⟨draft.amount.asset⟩
            (postings ++ [draft.posting book]) ≤ _ := sideTotal_le_append _ _ hpositive
        have hlower := sideTotal_nonneg draft.direction ⟨draft.amount.asset⟩ hamounts'
        unfold I64.InRange
        omega
      have hstep := hshows.add book draft
      cases hadd : totals.add draft with
      | none =>
          rw [hadd] at hstep
          exact absurd hown hstep
      | some totals' =>
          rw [hadd] at hstep
          have hnext : checkPosting book (totals, postings) draft = .ok _ :=
            checkPosting_eq_ok.2 ⟨hdraft, totals', hadd, rfl⟩
          rw [List.foldlM_cons, hnext]
          exact ih hstep.1 hamounts' hlater hfit

end Loop

/-- The drafts that `post` submits. -/
structure TransactionDraft.Accepted (draft : TransactionDraft) : Prop where
  book : draft.book ≠ ""
  unreserved : (Book.mk draft.book).isReserved = false
  idempotencyKey : draft.idempotencyKey ≠ ""
  postings : draft.postings ≠ []
  wellFormed : ∀ posting ∈ draft.postings, posting.WellFormed
  fits : SidesFit (draft.postings.map (PostingDraft.posting ⟨draft.book⟩))
  balanced : ∀ asset, sideTotal .debit asset
      (draft.postings.map (PostingDraft.posting ⟨draft.book⟩)) =
    sideTotal .credit asset (draft.postings.map (PostingDraft.posting ⟨draft.book⟩))

theorem parseBook_eq_ok {name : String} {book : Book} :
    parseBook name = .ok book ↔
      name ≠ "" ∧ (Book.mk name).isReserved = false ∧ book = ⟨name⟩ := by
  unfold parseBook parseBookLax
  rw [Except.bind_eq_ok]
  by_cases hname : name = ""
  · simp [hname]
  · cases hreserved : (Book.mk name).isReserved with
    | false => simp [hname, hreserved, eq_comm (a := book)]
    | true => simp [hname, hreserved]

theorem SideTotals.checkAsset_eq_ok {totals : SideTotals} {postings : List Posting}
    (hshows : totals.Shows postings) {asset : String} :
    totals.checkAsset asset = .ok () ↔
      sideTotal .debit ⟨asset⟩ postings = sideTotal .credit ⟨asset⟩ postings := by
  unfold checkAsset
  rw [hshows ⟨asset⟩]
  simp

/-- An asset that no posting has is balanced. -/
theorem balanced_of_forall_drafts {book : Book} {drafts : List PostingDraft}
    (hdrafts : ∀ draft ∈ drafts, sideTotal .debit ⟨draft.amount.asset⟩
        (drafts.map (PostingDraft.posting book)) =
      sideTotal .credit ⟨draft.amount.asset⟩ (drafts.map (PostingDraft.posting book)))
    (asset : AssetId) : sideTotal .debit asset (drafts.map (PostingDraft.posting book)) =
      sideTotal .credit asset (drafts.map (PostingDraft.posting book)) := by
  by_cases hasset : ∃ draft ∈ drafts, (⟨draft.amount.asset⟩ : AssetId) = asset
  · obtain ⟨draft, hdraft, rfl⟩ := hasset
    exact hdrafts draft hdraft
  · have hnone : ∀ direction, sideTotal direction asset
        (drafts.map (PostingDraft.posting book)) = 0 := by
      intro direction
      refine List.sum_eq_zero fun amount hamount => ?_
      obtain ⟨posting, hposting, rfl⟩ := List.mem_map.1 hamount
      obtain ⟨draft, hdraft, rfl⟩ := List.mem_map.1 hposting
      exact Posting.onSide_of_ne fun h => hasset ⟨draft, hdraft, h⟩
    rw [hnone, hnone]

/-- `post` submits the accepted drafts and no others, each as the transaction
it stands for. -/
theorem transactionOf_eq_ok {draft : TransactionDraft} {id : TxId} {now : Int}
    {tx : Transaction} :
    transactionOf draft id now = .ok tx ↔ draft.Accepted ∧ tx = draft.transaction id now := by
  have hstart : SidesFit [] := fun _ _ => I64.inRange_zero
  unfold transactionOf
  rw [Except.bind_eq_ok]
  simp only [parseBook_eq_ok]
  constructor
  · rintro ⟨book, ⟨hbook, hunreserved, rfl⟩, hrest⟩
    by_cases hkey : draft.idempotencyKey = ""
    · simp [hkey] at hrest
    by_cases hpostings : draft.postings = []
    · simp [hkey, hpostings] at hrest
    rw [if_neg hkey, if_neg hpostings, Except.bind_eq_ok] at hrest
    obtain ⟨⟨totals, postings⟩, hloop, hrest⟩ := hrest
    dsimp only at hrest
    rw [Except.bind_eq_ok] at hrest
    obtain ⟨⟨⟩, hchecks, htx⟩ := hrest
    obtain ⟨rfl, hshows, hfit, hformed⟩ := foldlM_checkPosting .nil hstart hloop
    refine ⟨⟨hbook, hunreserved, hkey, hpostings, hformed, hfit, ?_⟩, (Except.ok.inj htx).symm⟩
    refine balanced_of_forall_drafts fun posting hposting => ?_
    exact (SideTotals.checkAsset_eq_ok hshows).1 (Except.forM_eq_ok.1 hchecks posting hposting)
  · rintro ⟨haccepted, rfl⟩
    refine ⟨_, ⟨haccepted.book, haccepted.unreserved, rfl⟩, ?_⟩
    rw [if_neg haccepted.idempotencyKey, if_neg haccepted.postings, Except.bind_eq_ok]
    obtain ⟨⟨totals, postings⟩, hloop⟩ := exists_foldlM_checkPosting .nil (List.forall_mem_nil _)
      haccepted.wellFormed haccepted.fits
    obtain ⟨rfl, hshows, -, -⟩ := foldlM_checkPosting .nil hstart hloop
    refine ⟨_, hloop, ?_⟩
    dsimp only
    rw [Except.bind_eq_ok]
    refine ⟨(), Except.forM_eq_ok.2 fun posting _ => ?_, rfl⟩
    exact (SideTotals.checkAsset_eq_ok hshows).2 (haccepted.balanced _)

/-- What `post` submits is double entry. -/
theorem doubleEntry_of_transactionOf {draft : TransactionDraft} {id : TxId} {now : Int}
    {tx : Transaction} (hpost : transactionOf draft id now = .ok tx) : tx.DoubleEntry := by
  obtain ⟨haccepted, rfl⟩ := transactionOf_eq_ok.1 hpost
  refine ⟨fun posting hposting => ?_, haccepted.balanced⟩
  obtain ⟨draft, hdraft, rfl⟩ := List.mem_map.1 hposting
  exact (haccepted.wellFormed draft hdraft).1

end Talea.Service
