import Talea.Sqlite.Batch

/-!
# What an operation appends

Every operation leaves the database as it was or appends one event, with the
next sequence number of its book, and the postings of its transaction.  No row
that is there changes, but for counters and balances.
-/

namespace Talea.Sqlite

open Sql

/-- The books a transaction writes to: its own, and those of the accounts it
posts to. -/
def touched (tx : Transaction) : List String :=
  tx.book.name :: tx.postings.map fun posting => posting.account.book.name

/-- One event of a book, at one time, with postings to some books. -/
inductive Writes (db : Database) (book : String) (books : List String) (time : Int) :
    Database → Prop
  | same : Writes db book books time db
  | appends {next : Database} (event : LedgerEvent) (rows : List PostingRow)
      (hbook : book ∈ books)
      (hevents : next.events = db.events ++ [⟨book, claimedSeq db book, time, event⟩])
      (hbooks : next.books = db.books.insert book (claimedSeq db book))
      (hpostings : next.postings = db.postings ++ rows)
      (hrows : ∀ row ∈ rows, row.committedAt = time ∧ row.book = book ∧
        ∀ account : AccountId, row.accountKey = account.toKey → account.book.name ∈ books)
      (haccounts : ∀ key row, db.accounts.lookup key = some row →
        next.accounts.lookup key = some row) :
      Writes db book books time next

section Statements

variable {db next : Database} {tx : Transaction} {time seq : Int} {book : String}
  {event : LedgerEvent}

theorem refuseIf_bind_eq_ok {α : Type} {refused : Prop} [Decidable refused] {fault : Fault}
    {rest : Except Fault α} {value : α} :
    (refuseIf refused fault >>= fun _ => rest) = .ok value ↔ ¬ refused ∧ rest = .ok value := by
  unfold refuseIf
  split <;> simp [*, bind, Except.bind]

theorem insertEvent_eq_ok :
    insertEvent db book seq time event = .ok next ↔
      (¬ ∃ row ∈ db.events, row.book = book ∧ row.seq = seq) ∧
        next = { db with events := db.events ++ [⟨book, seq, time, event⟩] } := by
  unfold insertEvent
  rw [refuseIf_bind_eq_ok]
  exact and_congr_right fun _ => ⟨fun h => (Except.ok.inj h).symm, fun h => congrArg _ h.symm⟩

theorem upsertBalances_ok {pending : List Pending} {raws : List Int}
    (hupsert : upsertBalances db seq pending = .ok (raws, next)) :
    next = { db with balances := pending.foldl (upsertBalance seq) db.balances } := by
  unfold upsertBalances at hupsert
  rw [refuseIf_bind_eq_ok, refuseIf_bind_eq_ok] at hupsert
  obtain ⟨read, -, hread⟩ := Except.bind_eq_ok.1 hupsert.2.2
  cases hread
  rfl

theorem insertTransaction_ok (hinsert : insertTransaction db tx seq time = .ok next) :
    next = { db with
      transactions := db.transactions ++
        [⟨tx.id, tx.book.name, seq, tx.idempotencyKey.key, time⟩] } := by
  unfold insertTransaction at hinsert
  rw [refuseIf_bind_eq_ok, refuseIf_bind_eq_ok] at hinsert
  exact (Except.ok.inj hinsert.2.2).symm

theorem insertPostings_ok (hinsert : insertPostings db tx seq time = .ok next) :
    next = { db with postings := db.postings ++ postingRows tx seq time } := by
  unfold insertPostings at hinsert
  rw [refuseIf_bind_eq_ok, refuseIf_bind_eq_ok, refuseIf_bind_eq_ok] at hinsert
  exact (Except.ok.inj hinsert.2.2.2).symm

/-- The rows that a committed draft leaves behind. -/
theorem writeTransaction_ok {pending : List Pending} {committed : Committed}
    (hwrite : writeTransaction db tx pending time = .ok (committed, next)) :
    next = { db with
      books := db.books.insert tx.book.name (claimedSeq db tx.book.name)
      balances := pending.foldl (upsertBalance (claimedSeq db tx.book.name)) db.balances
      transactions := db.transactions ++ [⟨tx.id, tx.book.name, claimedSeq db tx.book.name,
        tx.idempotencyKey.key, time⟩]
      postings := db.postings ++ postingRows tx (claimedSeq db tx.book.name) time
      events := db.events ++ [⟨tx.book.name, claimedSeq db tx.book.name, time,
        .transactionPosted tx⟩] } := by
  unfold writeTransaction at hwrite
  obtain ⟨⟨seq, claimed⟩, hclaim, hwrite⟩ := Except.bind_eq_ok.1 hwrite
  obtain ⟨⟨raws, upserted⟩, hupsert, hwrite⟩ := Except.bind_eq_ok.1 hwrite
  obtain ⟨-, -, hwrite⟩ := Except.bind_eq_ok.1 hwrite
  obtain ⟨inserted, hinsert, hwrite⟩ := Except.bind_eq_ok.1 hwrite
  obtain ⟨posted, hpost, hwrite⟩ := Except.bind_eq_ok.1 hwrite
  obtain ⟨logged, hlog, hwrite⟩ := Except.bind_eq_ok.1 hwrite
  have hclaimed := (nextSeq_eq_ok.1 hclaim).2
  cases hclaimed
  cases upsertBalances_ok hupsert
  cases insertTransaction_ok hinsert
  cases insertPostings_ok hpost
  cases (insertEvent_eq_ok.1 hlog).2
  cases hwrite
  rfl

theorem postingRows_touched {row : PostingRow} (hrow : row ∈ postingRows tx seq time) :
    row.committedAt = time ∧ row.book = tx.book.name ∧
      ∀ account : AccountId, row.accountKey = account.toKey →
        account.book.name ∈ touched tx := by
  unfold postingRows at hrow
  obtain ⟨idx, hidx, rfl⟩ := List.mem_mapIdx.1 hrow
  refine ⟨rfl, rfl, fun account hkey => ?_⟩
  have haccount := AccountId.toKey_injective hkey
  refine List.mem_cons_of_mem _ (List.mem_map.2 ⟨tx.postings[idx], List.getElem_mem hidx, ?_⟩)
  rw [haccount]

end Statements

section Operations

variable {db next : Database} {tx : Transaction} {time : Int}

theorem writes_of_commitInSavepoint {answer : Answer}
    (hstep : commitInSavepoint db tx time = some (answer, next)) :
    Writes db tx.book.name (touched tx) time next := by
  cases answer with
  | error error =>
      cases commitInSavepoint_error hstep
      exact .same
  | ok committed =>
      unfold commitInSavepoint at hstep
      split at hstep
      · cases hstep
      · split at hstep
        · next done db' hdraft =>
            cases hstep
            unfold commitDraft at hdraft
            split at hdraft
            · cases hdraft
              exact .same
            · obtain ⟨pending, -, hwrite⟩ := Except.bind_eq_ok.1 hdraft
              cases writeTransaction_ok hwrite
              exact .appends _ _ List.mem_cons_self rfl rfl rfl
                (fun row hrow => postingRows_touched hrow) fun _ _ h => h
        · cases hstep
        · split at hstep <;> cases hstep
          exact .same

theorem writes_of_event {grown : Database} {book : String} {event : LedgerEvent}
    (hwritten : (nextSeq grown book >>= fun claimed =>
      insertEvent claimed.2 book claimed.1 time event) = .ok next)
    (hbooks : grown.books = db.books) (hevents : grown.events = db.events)
    (hpostings : grown.postings = db.postings)
    (haccounts : ∀ key row, db.accounts.lookup key = some row →
      grown.accounts.lookup key = some row) : Writes db book [book] time next := by
  obtain ⟨⟨seq, claimed⟩, hclaim, hinsert⟩ := Except.bind_eq_ok.1 hwritten
  cases (nextSeq_eq_ok.1 hclaim).2
  cases (insertEvent_eq_ok.1 hinsert).2
  have hseq : claimedSeq grown book = claimedSeq db book := by
    unfold claimedSeq
    rw [hbooks]
  refine .appends event [] List.mem_cons_self ?_ ?_ ?_ nofun haccounts
  · rw [hseq, hevents]
  · rw [hseq, hbooks]
  · rw [hpostings, List.append_nil]

theorem writes_of_registerAsset {asset : AssetDef} {result : Except StoreError Unit}
    (hstep : registerAsset db asset time = some (result, next)) :
    Writes db systemBook.name [systemBook.name] time next := by
  unfold registerAsset at hstep
  split at hstep
  · split at hstep <;> cases hstep <;> exact .same
  · dsimp only at hstep
    split at hstep
    · next written hwritten =>
        cases hstep
        exact writes_of_event hwritten rfl rfl rfl fun _ _ h => h
    · cases hstep
    · cases hstep
      exact .same

theorem writes_of_openAccount {account : AccountDef} {cfg : AccountCfg}
    {result : Except StoreError Unit}
    (hstep : openAccount db account cfg time = some (result, next)) :
    Writes db account.id.book.name [account.id.book.name] time next := by
  unfold openAccount at hstep
  split at hstep
  · cases hstep
    exact .same
  · split at hstep
    · cases hstep
      exact .same
    · split at hstep
      · split at hstep <;> cases hstep <;> exact .same
      · next hnew =>
          dsimp only at hstep
          split at hstep
          · next written hwritten =>
              cases hstep
              refine writes_of_event hwritten rfl rfl rfl fun key row hrow => ?_
              rw [HashMap.lookup_insert_ite, if_neg, hrow]
              rintro rfl
              rw [hnew] at hrow
              cases hrow
          · cases hstep
          · cases hstep
            exact .same

end Operations

/-! ## Sequence numbers -/

/-- The events of a book ascend in the table, and its counter is past them. -/
structure Numbered (db : Database) : Prop where
  ascend : db.events.Pairwise fun left right => left.book = right.book → left.seq < right.seq
  counted : ∀ row ∈ db.events, row.seq < claimedSeq db row.book

theorem Numbered.empty : Numbered .empty where
  ascend := .nil
  counted := nofun

section Numbered

variable {db next : Database} {book : String} {books : List String} {time : Int}

theorem claimedSeq_insert {name other : String}
    (hbooks : next.books = db.books.insert name (claimedSeq db name)) :
    claimedSeq next other = if other = name then claimedSeq db name + 1 else claimedSeq db other := by
  have hlookup : next.books.lookup other =
      if other = name then some (claimedSeq db name) else db.books.lookup other := by
    rw [hbooks, HashMap.lookup_insert_ite]
  unfold claimedSeq
  rw [hlookup]
  by_cases hother : other = name
  · rw [if_pos hother, if_pos hother]
    rfl
  · rw [if_neg hother, if_neg hother]

theorem Numbered.writes (hnumbered : Numbered db) (hwrites : Writes db book books time next) :
    Numbered next := by
  cases hwrites with
  | same => exact hnumbered
  | appends event rows hbook hevents hbooks hpostings hrows haccounts =>
      refine ⟨?_, fun row hrow => ?_⟩
      · rw [hevents, List.pairwise_append]
        refine ⟨hnumbered.ascend, List.pairwise_singleton _ _, fun row hrow new hnew hsame => ?_⟩
        cases List.mem_singleton.1 hnew
        have hname : row.book = book := hsame
        have hcounted := hnumbered.counted row hrow
        rwa [hname] at hcounted
      · rw [claimedSeq_insert hbooks]
        rw [hevents, List.mem_append, List.mem_singleton] at hrow
        rcases hrow with hold | rfl
        · have hcounted := hnumbered.counted row hold
          split
          · next hname =>
              rw [hname] at hcounted
              exact hcounted.trans (Int.lt_succ _)
          · exact hcounted
        · rw [if_pos rfl]
          exact Int.lt_succ _

end Numbered

end Talea.Sqlite
