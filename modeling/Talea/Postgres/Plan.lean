import Talea.Postgres.WriteSet

/-!
# A batch as drafts in a row

A batch writes one row for each account that it touches, as if its last draft
on the account had written it and each draft before that one a balance of its
own.  So what the batch leaves is what its drafts would leave one after the
other.
-/

namespace Talea.Postgres

open Sql

/-- The drafts of a batch, each with the balance rows of its own. -/
abbrev Plan := List (NumberedDraft × List (String × BalanceRow))

def stepOp (time : Int) (step : NumberedDraft × List (String × BalanceRow)) : Op :=
  .posted step.1.tx step.1.seq time step.2

/-- The drafts are numbered in a row. -/
def Counted : Int → List NumberedDraft → Prop
  | _, [] => True
  | seq, draft :: drafts => draft.seq = seq ∧ Counted (seq + 1) drafts

theorem numbered_cons (first : Int) (write : ℕ × Transaction) (writes : List (ℕ × Transaction)) :
    numbered first (write :: writes) = ⟨first, write.1, write.2⟩ :: numbered (first + 1) writes := by
  unfold numbered
  rw [List.zipIdx_cons, List.map_cons, List.zipIdx_succ, List.map_map]
  congr 1
  · simp
  · refine List.map_congr_left fun entry _ => ?_
    simp only [Function.comp_apply, NumberedDraft.mk.injEq, and_self, and_true]
    push_cast
    ring

theorem counted_numbered (first : Int) (writes : List (ℕ × Transaction)) :
    Counted first (numbered first writes) := by
  induction writes generalizing first with
  | nil => trivial
  | cons write writes ih =>
      rw [numbered_cons]
      exact ⟨rfl, ih _⟩

theorem mem_numbered {first : Int} {writes : List (ℕ × Transaction)} {draft : NumberedDraft}
    (hdraft : draft ∈ numbered first writes) : (draft.input, draft.tx) ∈ writes := by
  obtain ⟨entry, hentry, rfl⟩ := List.mem_map.1 hdraft
  exact List.fst_mem_of_mem_zipIdx hentry

/-! ## What a plan leaves -/

section View

variable {db : Database} {plan : Plan} {time : Int}

def insertAll (entries : List (String × BalanceRow)) (map : HashMap String BalanceRow) :
    HashMap String BalanceRow :=
  entries.foldl (fun map entry => map.insert entry.1 entry.2) map

theorem view_plan : view db (opWrites (plan.map (stepOp time))) =
    { db with
      books := plan.foldl (fun books step => books.insert step.1.tx.book.name step.1.seq) db.books
      balances := insertAll (plan.flatMap Prod.snd) db.balances
      transactions := db.transactions ++ plan.map fun step =>
        transactionRow step.1.tx step.1.seq time
      postings := db.postings ++ plan.flatMap fun step => postingRows step.1.tx step.1.seq time
      events := db.events ++ plan.map fun step =>
        ⟨step.1.tx.book.name, step.1.seq, time, .transactionPosted step.1.tx⟩ } := by
  induction plan generalizing db with
  | nil => simp [opWrites, insertAll]
  | cons step plan ih =>
      rw [List.map_cons, opWrites, List.flatMap_cons, view_append]
      change view (view db (Op.posted _ _ _ _).writes) (opWrites (plan.map (stepOp time))) = _
      rw [ih, view_posted]
      simp [insertAll]

theorem books_plan {book : String} {seq : Int} {books : HashMap String Int}
    (hcounted : Counted seq (plan.map Prod.fst))
    (hbook : ∀ step ∈ plan, step.1.tx.book.name = book) (hplan : plan ≠ []) :
    plan.foldl (fun books step => books.insert step.1.tx.book.name step.1.seq) books =
      books.insert book (seq + plan.length - 1) := by
  induction plan generalizing seq books with
  | nil => exact absurd rfl hplan
  | cons step plan ih =>
      obtain ⟨hseq, hcounted⟩ := hcounted
      rw [List.foldl_cons, hbook step List.mem_cons_self, hseq]
      cases plan with
      | nil => simp
      | cons next plan =>
          rw [ih hcounted (fun step hstep => hbook step (List.mem_cons_of_mem _ hstep))
            (List.cons_ne_nil _ _), Finmap.insert_insert]
          congr 1
          simp only [List.length_cons]
          push_cast
          ring

end View

/-! ## Drafts that may come next -/

/-- The balance rows of each draft are right behind those before it. -/
def BalancedRun (time : Int) : Database → Plan → Prop
  | _, [] => True
  | db, step :: plan =>
      Balanced db step.1.tx step.2 ∧ BalancedRun time (view db (stepOp time step).writes) plan

section Chain

variable {exact : Prop} {db : Database} {plan : Plan} {book : String} {seq time : Int}

theorem Claims.next (hclaims : Claims db book seq time) (event : LedgerEvent) {next : Database}
    (hbooks : next.books = db.books.insert book seq)
    (hevents : next.events = db.events ++ [⟨book, seq, time, event⟩]) :
    Claims next book (seq + 1) time where
  seq := by rw [claimed_insert hbooks, if_pos rfl]
  time row hrow hbook := by
    rw [hevents, List.mem_append] at hrow
    rcases hrow with hold | hnew
    · exact hclaims.time row hold hbook
    · cases List.mem_singleton.1 hnew
      exact le_rfl

theorem chain_plan {rows : Database} {new : List Write}
    (hcounted : Counted seq (plan.map Prod.fst))
    (hbook : ∀ step ∈ plan, step.1.tx.book.name = book) (hclaims : Claims db book seq time)
    (hrows : rows.transactions = db.transactions)
    (hinsert : insertRows .transaction transactionConflict rows (plan.map fun step =>
      transactionRow step.1.tx step.1.seq time) = .ok new)
    (hknown : ∀ step ∈ plan, ∀ posting ∈ step.1.tx.postings,
      (db.accounts.lookup posting.account.toKey).isSome)
    (hbalanced : exact → BalancedRun time db plan) :
    Chain exact db (plan.map (stepOp time)) := by
  induction plan generalizing db rows seq new with
  | nil => trivial
  | cons step plan ih =>
      obtain ⟨hseq, hcounted⟩ := hcounted
      have hname := hbook step List.mem_cons_self
      rw [List.map_cons, insertRows_cons] at hinsert
      obtain ⟨hnone, rest, hrest, -⟩ := hinsert
      obtain ⟨hids, hkeys⟩ := transactionConflict_eq_none.1 hnone
      rw [hrows] at hids hkeys
      have hview : view db (stepOp time step).writes = _ := view_posted _ _ _ _
      refine ⟨⟨?_, hids, hkeys, hknown step List.mem_cons_self,
        fun hexact => (hbalanced hexact).1⟩, ?_⟩
      · rw [hname, hseq]
        exact hclaims
      · refine ih hcounted (fun other hother => hbook other (List.mem_cons_of_mem _ hother)) ?_ ?_
          hrest ?_ (fun hexact => (hbalanced hexact).2)
        · rw [hview]
          refine hclaims.next (.transactionPosted step.1.tx) (by rw [hname, hseq]) ?_
          rw [hname, hseq]
        · rw [hview]
          change rows.transactions ++ [_] = _
          rw [hrows]
        · rw [hview]
          exact fun other hother => hknown other (List.mem_cons_of_mem _ hother)

end Chain

/-! ## Running balances -/

/-- What the upsert and the replay of the running balances have found out for
drafts that are still to come. -/
structure Fits (accounts : HashMap String AccountRow) (db : Database)
    (folds : List (List Pending)) : Prop where
  runs : ∀ key, I64.RunsInRange (rawBalance db key) (stepsOf folds key)
  minimum : ∀ key acct min, accounts.lookup key = some acct → acct.minBalance = some min →
    prefixesHold acct.normalSide min (rawBalance db key) (stepsOf folds key)

/-- The balance rows of a draft: those of the batch with the running balances. -/
def runningRows (final : String → BalanceRow) (db : Database) (pending : List Pending) :
    List (String × BalanceRow) :=
  pending.map fun entry =>
    (entry.key, { final entry.key with balance := rawBalance db entry.key + entry.delta })

def planned (time : Int) (final : String → BalanceRow) :
    Database → List (NumberedDraft × List Pending) → Plan
  | _, [] => []
  | db, (draft, pending) :: rest =>
      let step := (draft, runningRows final db pending)
      step :: planned time final (view db (stepOp time step).writes) rest

section Fits

variable {accounts : HashMap String AccountRow} {db : Database} {folds : List (List Pending)}
  {pending : List Pending} {final : String → BalanceRow} {tx : Transaction} {time : Int}

theorem Fits.balanced (hfits : Fits accounts db (pending :: folds))
    (hfolded : Folded accounts tx.postings pending)
    (hrows : ∀ key row, accounts.lookup key = some row → db.accounts.lookup key = some row) :
    Balanced db tx (runningRows final db pending) := by
  have hsteps : ∀ entry ∈ pending, stepsOf (pending :: folds) entry.key =
      entry.delta :: stepsOf folds entry.key := by
    intro entry hentry
    rw [stepsOf_cons, steps_folded hfolded, if_pos (List.mem_map_of_mem hentry),
      (hfolded.shows entry hentry).delta]
    rfl
  have hrange : ∀ entry ∈ pending, I64.InRange (rawBalance db entry.key + entry.delta) := by
    intro entry hentry
    have hruns := hfits.runs entry.key
    rw [hsteps entry hentry] at hruns
    exact hruns.1
  refine ⟨fun posting hposting => ?_, fun entry hentry => ?_, fun entry hentry _ row hrow min hmin =>
    ?_⟩
  · obtain ⟨entry, hentry, hkey⟩ := List.mem_map.1 ((hfolded.keys _).2 ⟨posting, hposting, rfl⟩)
    rw [runningRows, List.map_map]
    exact List.mem_map.2 ⟨entry, hentry, hkey⟩
  · obtain ⟨source, hsource, rfl⟩ := List.mem_map.1 hentry
    refine ⟨?_, hrange source hsource⟩
    change rawBalance db source.key + source.delta = _
    rw [(hfolded.shows source hsource).delta]
  · obtain ⟨source, hsource, rfl⟩ := List.mem_map.1 hentry
    obtain ⟨acct, hacct, -, -, -⟩ := (hfolded.shows source hsource).row
    have hsame := hrows _ _ hacct
    have hrow : db.accounts.lookup source.key = some row := hrow
    rw [hrow] at hsame
    cases hsame
    have hholds := hfits.minimum source.key row min hacct hmin
    rw [hsteps source hsource, prefixesHold, Bool.and_eq_true, decide_eq_true_eq,
      I64.wrappingAdd, I64.wrapping_of_inRange (hrange source hsource)] at hholds
    exact hholds.1

theorem Fits.next (hfits : Fits accounts db (pending :: folds))
    (hfolded : Folded accounts tx.postings pending) {next : Database}
    (hnext : ∀ key, rawBalance next key = rawBalance db key + deltaOf tx.postings key) :
    Fits accounts next folds := by
  constructor
  · intro key
    have hruns := hfits.runs key
    rw [stepsOf_cons, I64.runsInRange_append, sum_steps_folded hfolded, ← hnext] at hruns
    exact hruns.2
  · intro key acct min hacct hmin
    have hholds := hfits.minimum key acct min hacct hmin
    have hruns := hfits.runs key
    rw [stepsOf_cons, steps_folded hfolded] at hholds hruns
    split at hholds
    · next htouched =>
        rw [if_pos htouched] at hruns
        change prefixesHold _ _ _ (_ :: stepsOf folds key) = true at hholds
        rw [prefixesHold, Bool.and_eq_true, I64.wrappingAdd, I64.wrapping_of_inRange hruns.1,
          ← hnext] at hholds
        exact hholds.2
    · next huntouched =>
        rw [hfolded.keys] at huntouched
        rw [hnext, deltaOf_eq_zero huntouched, add_zero]
        exact hholds

variable {drafts : List (NumberedDraft × List Pending)}

theorem planned_drafts : (planned time final db drafts).map Prod.fst = drafts.map Prod.fst := by
  induction drafts generalizing db with
  | nil => rfl
  | cons draft drafts ih => exact congrArg (draft.1 :: ·) ih

theorem Fits.run (hfits : Fits accounts db (drafts.map Prod.snd))
    (hfolded : ∀ draft ∈ drafts, Folded accounts draft.1.tx.postings draft.2)
    (hrows : ∀ key row, accounts.lookup key = some row → db.accounts.lookup key = some row) :
    BalancedRun time db (planned time final db drafts) := by
  induction drafts generalizing db with
  | nil => trivial
  | cons draft drafts ih =>
      have hfirst := hfolded draft List.mem_cons_self
      have hbalanced : Balanced db draft.1.tx (runningRows final db draft.2) :=
        hfits.balanced hfirst hrows
      refine ⟨hbalanced, ih (hfits.next hfirst fun key => hbalanced.rawBalance_eq key)
        (fun other hother => hfolded other (List.mem_cons_of_mem _ hother)) ?_⟩
      change ∀ key row, _ → (view db (Op.posted _ _ _ _).writes).accounts.lookup key = _
      rw [view_posted]
      exact hrows

/-- The rows of a plan are those of the batch: the last draft on an account
leaves the balance behind all of them. -/
theorem Fits.lookup (hfits : Fits accounts db (drafts.map Prod.snd))
    (hfolded : ∀ draft ∈ drafts, Folded accounts draft.1.tx.postings draft.2)
    (hrows : ∀ key row, accounts.lookup key = some row → db.accounts.lookup key = some row)
    (map : HashMap String BalanceRow) (key : String) :
    (insertAll ((planned time final db drafts).flatMap Prod.snd) map).lookup key =
      if stepsOf (drafts.map Prod.snd) key = [] then map.lookup key
      else some { final key with
        balance := rawBalance db key + (stepsOf (drafts.map Prod.snd) key).sum } := by
  induction drafts generalizing db map with
  | nil => rfl
  | cons draft drafts ih =>
      have hfirst := hfolded draft List.mem_cons_self
      have hbalanced : Balanced db draft.1.tx (runningRows final db draft.2) :=
        hfits.balanced hfirst hrows
      have hraw : ∀ key, rawBalance (view db (stepOp time
          (draft.1, runningRows final db draft.2)).writes) key =
          rawBalance db key + deltaOf draft.1.tx.postings key := fun key =>
        hbalanced.rawBalance_eq key
      have hrest := ih (hfits.next hfirst hraw)
        (fun other hother => hfolded other (List.mem_cons_of_mem _ hother)) (by
          change ∀ key row, _ → (view db (Op.posted _ _ _ _).writes).accounts.lookup key = _
          rw [view_posted]
          exact hrows) (insertAll (runningRows final db draft.2) map)
      have hsplit : insertAll ((planned time final db (draft :: drafts)).flatMap Prod.snd) map =
          insertAll ((planned time final (view db (stepOp time
            (draft.1, runningRows final db draft.2)).writes) drafts).flatMap Prod.snd)
              (insertAll (runningRows final db draft.2) map) := by
        rw [insertAll, insertAll, insertAll, ← List.foldl_append]
        rfl
      rw [hsplit, hrest, List.map_cons, stepsOf_cons, List.sum_append, sum_steps_folded hfirst,
        hraw, add_assoc]
      by_cases hlater : stepsOf (drafts.map Prod.snd) key = []
      · rw [if_pos hlater, hlater, List.append_nil, List.sum_nil, add_zero, steps_folded hfirst]
        rcases HashMap.lookup_foldl_insert (runningRows final db draft.2) map key with
          ⟨entry, hentry, rfl, hlookup⟩ | ⟨hnot, hlookup⟩
        · obtain ⟨source, hsource, rfl⟩ := List.mem_map.1 hentry
          have htouched : source.key ∈ draft.2.map Pending.key := List.mem_map_of_mem hsource
          rw [if_pos htouched, if_neg (List.cons_ne_nil _ _),
            ← (hfirst.shows source hsource).delta]
          exact hlookup
        · have huntouched : key ∉ draft.2.map Pending.key := by
            rwa [runningRows, List.map_map] at hnot
          rw [if_neg huntouched, if_pos rfl]
          exact hlookup
      · rw [if_neg hlater, if_neg fun hnil => hlater (List.append_eq_nil_iff.1 hnil).2]

end Fits

/-- The rows that a batch writes are those of some plan for its drafts. -/
theorem exists_plan {exact : Prop} {accounts : HashMap String AccountRow} {db : Database}
    (time : Int) {drafts : List NumberedDraft} {folds : List (List Pending)}
    {entries : List (String × BalanceRow)} (hdrafts : drafts ≠ [])
    (hfolded : List.Forall₂ (fun draft pending => Folded accounts draft.tx.postings pending)
      drafts folds)
    (hrows : ∀ key row, accounts.lookup key = some row → db.accounts.lookup key = some row)
    (hkeys : ∀ key, key ∈ entries.map Prod.fst ↔ stepsOf folds key ≠ [])
    (hexact : exact → Fits accounts db folds ∧ ∀ entry ∈ entries,
      entry.2.balance = rawBalance db entry.1 + (stepsOf folds entry.1).sum) :
    ∃ plan : Plan, plan.map Prod.fst = drafts ∧
      (∀ map, insertAll (plan.flatMap Prod.snd) map = insertAll entries map) ∧
      (∀ step ∈ plan, ∀ entry ∈ step.2, entry.1 ∈ entries.map Prod.fst) ∧
      (exact → BalancedRun time db plan) := by
  by_cases hcase : exact
  · obtain ⟨hfits, hbalance⟩ := hexact hcase
    let final : String → BalanceRow := fun key =>
      ((insertAll entries ∅).lookup key).getD ⟨⟨""⟩, 0, 0⟩
    let pairs := drafts.zip folds
    have hlength := hfolded.length_eq
    have hfst : pairs.map Prod.fst = drafts := List.map_fst_zip hlength.le
    have hsnd : pairs.map Prod.snd = folds := List.map_snd_zip hlength.ge
    have hpairs : ∀ pair ∈ pairs, Folded accounts pair.1.tx.postings pair.2 := fun pair hpair =>
      (List.forall₂_iff_zip.1 hfolded).2 hpair
    rw [← hsnd] at hfits hkeys hbalance
    have hlookup : ∀ map key, (insertAll ((planned time final db pairs).flatMap Prod.snd) map).lookup
        key = (insertAll entries map).lookup key := by
      intro map key
      rw [hfits.lookup hpairs hrows]
      rcases HashMap.lookup_foldl_insert entries map key with
        ⟨entry, hentry, rfl, hfound⟩ | ⟨hnot, hfound⟩
      · have hmem : entry.1 ∈ entries.map Prod.fst := List.mem_map_of_mem hentry
        have hfinal : final entry.1 = entry.2 := by
          have hsame := HashMap.lookup_foldl_insert_of_mem hmem map ∅
          rw [hfound] at hsame
          exact congrArg (fun row => Option.getD row _) hsame.symm
        rw [if_neg ((hkeys _).1 hmem), hfinal, ← hbalance entry hentry]
        exact hfound.symm
      · rw [if_pos (not_not.1 fun hsteps => hnot ((hkeys key).2 hsteps))]
        exact hfound.symm
    refine ⟨planned time final db pairs, planned_drafts.trans hfst,
      fun map => Finmap.ext_lookup fun key => hlookup map key, fun step hstep entry hentry => ?_,
      fun _ => hfits.run hpairs hrows⟩
    have hmem : entry.1 ∈ ((planned time final db pairs).flatMap Prod.snd).map Prod.fst :=
      List.mem_map_of_mem (List.mem_flatMap.2 ⟨step, hstep, hentry⟩)
    have hsame := hlookup ∅ entry.1
    rcases HashMap.lookup_foldl_insert entries ∅ entry.1 with
      ⟨other, hother, hkey, -⟩ | ⟨-, hnone⟩
    · exact hkey ▸ List.mem_map_of_mem hother
    · rcases HashMap.lookup_foldl_insert ((planned time final db pairs).flatMap Prod.snd) ∅
          entry.1 with ⟨found, -, -, hfound⟩ | ⟨hnot, -⟩
      · rw [insertAll, insertAll, hfound, hnone, Finmap.lookup_empty] at hsame
        cases hsame
      · exact absurd hmem hnot
  · cases drafts with
    | nil => exact absurd rfl hdrafts
    | cons draft drafts =>
        refine ⟨(draft, entries) :: drafts.map fun draft => (draft, []), ?_, fun map => ?_,
          fun step hstep entry hentry => ?_, fun hexact => absurd hexact hcase⟩
        · exact congrArg (draft :: ·) ((List.map_map ..).trans (List.map_id drafts))
        · have hnil : (drafts.map fun draft => (draft, ([] : List (String × BalanceRow)))).flatMap
              Prod.snd = [] := by
            rw [List.flatMap_map]
            exact List.flatMap_eq_nil_iff.2 fun _ _ => rfl
          rw [List.flatMap_cons, hnil, List.append_nil]
        · rcases List.mem_cons.1 hstep with rfl | hmem
          · exact List.mem_map_of_mem hentry
          · obtain ⟨other, -, rfl⟩ := List.mem_map.1 hmem
            cases hentry

end Talea.Postgres
