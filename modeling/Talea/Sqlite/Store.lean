import Talea.Sqlite.Writes

/-!
# The operations of the SQLite store

Each operation is one write transaction with the write lock taken up front, so
a run is a list of operations, whoever asks for them.
-/

namespace Talea.Sqlite

open Sql

/-- What a caller asks of the store, with the readings of the clock that the
operation takes. -/
inductive Op
  | registerAsset (asset : AssetDef) (time : Int)
  | openAccount (account : AccountDef) (cfg : AccountCfg) (time : Int)
  | commit (tx : Transaction) (time : Int)
  | commitBatch (drafts : List (Transaction × Int))

/-- A panic rolls the operation back. -/
def step (db : Database) : Op → Option Database
  | .registerAsset asset time => some (((registerAsset db asset time).map Prod.snd).getD db)
  | .openAccount account cfg time => some (((openAccount db account cfg time).map Prod.snd).getD db)
  | .commit tx time => some (((commit db tx time).map Prod.snd).getD db)
  | .commitBatch drafts => some (((commitBatch db drafts).map Prod.snd).getD db)

/-- Every write of an operation meets a condition on the database it finds, the
books it touches and the time it reads. -/
def OpMeets (cond : Database → List String → Int → Prop) (db : Database) : Op → Prop
  | .registerAsset _ time => cond db [systemBook.name] time
  | .openAccount account _ time => cond db [account.id.book.name] time
  | .commit tx time => cond db (touched tx) time
  | .commitBatch drafts =>
      StepsMeet savepointStep (fun db draft => cond db (touched draft.1) draft.2) db drafts

section Meets

variable {cond : Database → List String → Int → Prop}

instance [∀ db books time, Decidable (cond db books time)] (db : Database) :
    ∀ op, Decidable (OpMeets cond db op)
  | .registerAsset _ time => inferInstanceAs (Decidable (cond db [systemBook.name] time))
  | .openAccount account _ time =>
      inferInstanceAs (Decidable (cond db [account.id.book.name] time))
  | .commit tx time => inferInstanceAs (Decidable (cond db (touched tx) time))
  | .commitBatch drafts => inferInstanceAs (Decidable
      (StepsMeet savepointStep (fun db draft => cond db (touched draft.1) draft.2) db drafts))

variable {Inv : Database → Prop} {db next : Database}

/-- What every write that meets the condition keeps, every operation keeps. -/
theorem step_invariant
    (hwrites : ∀ db name books time next, Inv db → cond db books time →
      Writes db name books time next → Inv next)
    (hinv : Inv db) {op : Op} (hmeets : OpMeets cond db op) (hstep : step db op = some next) :
    Inv next := by
  cases op with
  | registerAsset asset time =>
      cases hstep
      cases hresult : registerAsset db asset time with
      | none => exact hinv
      | some result => exact hwrites _ _ _ _ _ hinv hmeets (writes_of_registerAsset hresult)
  | openAccount account cfg time =>
      cases hstep
      cases hresult : openAccount db account cfg time with
      | none => exact hinv
      | some result => exact hwrites _ _ _ _ _ hinv hmeets (writes_of_openAccount hresult)
  | commit tx time =>
      cases hstep
      cases hresult : commit db tx time with
      | none => exact hinv
      | some result => exact hwrites _ _ _ _ _ hinv hmeets (writes_of_commitInSavepoint hresult)
  | commitBatch drafts =>
      cases hstep
      cases hresult : commitBatch db drafts with
      | none => exact hinv
      | some result =>
          obtain ⟨answers, final⟩ := result
          change Inv final
          induction drafts generalizing db answers final with
          | nil =>
              cases hresult
              exact hinv
          | cons draft drafts ih =>
              obtain ⟨answer, mid, rest, last, hdraft, hrest, heq⟩ := commitBatch_cons.1 hresult
              cases heq
              have hmid : savepointStep db draft = some mid := by
                rw [savepointStep, hdraft]
                rfl
              exact ih (hwrites _ _ _ _ _ hinv hmeets.1 (writes_of_commitInSavepoint hdraft))
                (hmeets.2 mid hmid) _ _ hrest

end Meets

/-! ## Wake-ups -/

/-- One wake-up for each distinct book with a draft that was answered with a
commit. -/
def distinctBooks : List String → List ((Transaction × Int) × Answer) → List String
  | published, [] => published
  | published, ((tx, _), answer) :: rest =>
      if answer.isOk = true ∧ tx.book.name ∉ published then
        distinctBooks (published ++ [tx.book.name]) rest
      else distinctBooks published rest

/-- The books that an operation publishes behind its commit. -/
def wakeUps (db : Database) : Op → List String
  | .registerAsset asset time =>
      match db.assets.lookup asset.id.id, registerAsset db asset time with
      | none, some (.ok (), _) => [systemBook.name]
      | _, _ => []
  | .openAccount account cfg time =>
      match db.accounts.lookup account.id.toKey, openAccount db account cfg time with
      | none, some (.ok (), _) => [account.id.book.name]
      | _, _ => []
  | .commit tx time =>
      if tx.book.isReserved then []
      else
        match commitDraft db tx time with
        | .ok _ => [tx.book.name]
        | .error _ => []
  | .commitBatch drafts =>
      match commitBatch db drafts with
      | some (answers, _) => distinctBooks [] (drafts.zip answers)
      | none => []

section WakeUps

variable {db next : Database}

theorem subset_distinctBooks (published : List String)
    (drafts : List ((Transaction × Int) × Answer)) :
    published ⊆ distinctBooks published drafts := by
  induction drafts generalizing published with
  | nil => exact List.Subset.refl _
  | cons draft drafts ih =>
      unfold distinctBooks
      split
      · exact fun book hbook => ih _ (List.subset_append_left _ _ hbook)
      · exact ih _

theorem mem_distinctBooks {published : List String} {drafts : List ((Transaction × Int) × Answer)}
    {draft : (Transaction × Int) × Answer} (hdraft : draft ∈ drafts)
    (hok : draft.2.isOk = true) : draft.1.1.book.name ∈ distinctBooks published drafts := by
  induction drafts generalizing published with
  | nil => cases hdraft
  | cons first drafts ih =>
      obtain ⟨⟨tx, time⟩, answer⟩ := first
      unfold distinctBooks
      rcases List.mem_cons.1 hdraft with rfl | hrest
      · split
        · exact subset_distinctBooks _ _ (List.mem_append_right _ (List.mem_singleton.2 rfl))
        · next hnot =>
            refine subset_distinctBooks _ _ ?_
            by_contra hnew
            exact hnot ⟨hok, hnew⟩
      · split
        · exact ih hrest
        · exact ih hrest

/-- A draft that appends an event is answered with a commit, and the event is of
its book. -/
theorem events_commitInSavepoint {tx : Transaction} {time : Int} {answer : Answer}
    (hstep : commitInSavepoint db tx time = some (answer, next)) :
    next.events = db.events ∨
      tx.book.isReserved = false ∧ answer.isOk = true ∧
        (∃ value, commitDraft db tx time = .ok value) ∧
        ∃ row, next.events = db.events ++ [row] ∧ row.book = tx.book.name := by
  unfold commitInSavepoint at hstep
  split at hstep
  · cases hstep
    exact Or.inl rfl
  · next hreserved =>
      split at hstep
      · next committed db' hdraft =>
          cases hstep
          have hvalue := hdraft
          unfold commitDraft at hdraft
          split at hdraft
          · cases hdraft
            exact Or.inl rfl
          · obtain ⟨pending, -, hwrite⟩ := Except.bind_eq_ok.1 hdraft
            cases writeTransaction_ok hwrite
            exact Or.inr ⟨Bool.eq_false_iff.2 hreserved, rfl, ⟨_, hvalue⟩, _, rfl, rfl⟩
      · cases hstep
      · split at hstep <;> cases hstep
        · exact Or.inl rfl
        · exact Or.inl rfl

/-- Every event that a batch appends is of a book with a committed draft. -/
theorem events_commitBatch {drafts : List (Transaction × Int)} {answers : List Answer}
    (hbatch : commitBatch db drafts = some (answers, next)) :
    ∃ rows, next.events = db.events ++ rows ∧ ∀ row ∈ rows, ∃ draft ∈ drafts.zip answers,
      draft.2.isOk = true ∧ row.book = draft.1.1.book.name := by
  induction drafts generalizing db answers next with
  | nil =>
      cases hbatch
      exact ⟨[], (List.append_nil _).symm, nofun⟩
  | cons draft drafts ih =>
      obtain ⟨answer, mid, rest, last, hdraft, hrest, heq⟩ := commitBatch_cons.1 hbatch
      cases heq
      obtain ⟨rows, hrows, hbooks⟩ := ih hrest
      have hlater : ∀ row ∈ rows, ∃ other ∈ (draft :: drafts).zip (answer :: rest),
          other.2.isOk = true ∧ row.book = other.1.1.book.name := by
        intro row hrow
        obtain ⟨other, hother, hprops⟩ := hbooks row hrow
        exact ⟨other, List.mem_cons_of_mem _ hother, hprops⟩
      rcases events_commitInSavepoint hdraft with hsame | ⟨-, hok, -, row, hevents, hbook⟩
      · exact ⟨rows, by rw [hrows, hsame], hlater⟩
      · refine ⟨row :: rows, by rw [hrows, hevents, List.append_assoc]; rfl, fun other hother => ?_⟩
        rcases List.mem_cons.1 hother with rfl | hother
        · exact ⟨(draft, answer), List.mem_cons_self, hok, hbook⟩
        · exact hlater other hother

theorem events_of_event {grown : Database} {book : String} {time : Int} {event : LedgerEvent}
    (hwritten : (nextSeq grown book >>= fun claimed =>
      insertEvent claimed.2 book claimed.1 time event) = .ok next)
    (hevents : grown.events = db.events) :
    ∃ row, next.events = db.events ++ [row] ∧ row.book = book := by
  obtain ⟨⟨seq, claimed⟩, hclaim, hinsert⟩ := Except.bind_eq_ok.1 hwritten
  cases (nextSeq_eq_ok.1 hclaim).2
  cases (insertEvent_eq_ok.1 hinsert).2
  exact ⟨_, congrArg (· ++ _) hevents, rfl⟩

theorem events_registerAsset {asset : AssetDef} {time : Int} {result : Except StoreError Unit}
    (hstep : registerAsset db asset time = some (result, next)) :
    next.events = db.events ∨ db.assets.lookup asset.id.id = none ∧ result = .ok () ∧
      ∃ row, next.events = db.events ++ [row] ∧ row.book = systemBook.name := by
  unfold registerAsset at hstep
  split at hstep
  · split at hstep <;> cases hstep <;> exact Or.inl rfl
  · next hnew =>
      dsimp only at hstep
      split at hstep
      · next written hwritten =>
          cases hstep
          exact Or.inr ⟨hnew, rfl, events_of_event hwritten rfl⟩
      · cases hstep
      · cases hstep
        exact Or.inl rfl

theorem events_openAccount {account : AccountDef} {cfg : AccountCfg} {time : Int}
    {result : Except StoreError Unit}
    (hstep : openAccount db account cfg time = some (result, next)) :
    next.events = db.events ∨ db.accounts.lookup account.id.toKey = none ∧ result = .ok () ∧
      ∃ row, next.events = db.events ++ [row] ∧ row.book = account.id.book.name := by
  unfold openAccount at hstep
  split at hstep
  · cases hstep
    exact Or.inl rfl
  · split at hstep
    · cases hstep
      exact Or.inl rfl
    · split at hstep
      · split at hstep <;> cases hstep <;> exact Or.inl rfl
      · next hnew =>
          dsimp only at hstep
          split at hstep
          · next written hwritten =>
              cases hstep
              exact Or.inr ⟨hnew, rfl, events_of_event hwritten rfl⟩
          · cases hstep
          · cases hstep
            exact Or.inl rfl

/-- What an operation appends, it publishes. -/
theorem events_step {op : Op} (hstep : step db op = some next) :
    ∃ rows, next.events = db.events ++ rows ∧ ∀ row ∈ rows, row.book ∈ wakeUps db op := by
  cases op with
  | registerAsset asset time =>
      cases hstep
      cases hresult : registerAsset db asset time with
      | none => exact ⟨[], (List.append_nil _).symm, List.forall_mem_nil _⟩
      | some result =>
          obtain ⟨answer, final⟩ := result
          rcases events_registerAsset hresult with hsame | ⟨hnew, hok, row, hevents, hbook⟩
          · exact ⟨[], hsame.trans (List.append_nil _).symm, List.forall_mem_nil _⟩
          · refine ⟨[row], hevents, List.forall_mem_singleton.2 ?_⟩
            cases hok
            rw [wakeUps, hnew, hresult, hbook]
            exact List.mem_singleton.2 rfl
  | openAccount account cfg time =>
      cases hstep
      cases hresult : openAccount db account cfg time with
      | none => exact ⟨[], (List.append_nil _).symm, List.forall_mem_nil _⟩
      | some result =>
          obtain ⟨answer, final⟩ := result
          rcases events_openAccount hresult with hsame | ⟨hnew, hok, row, hevents, hbook⟩
          · exact ⟨[], hsame.trans (List.append_nil _).symm, List.forall_mem_nil _⟩
          · refine ⟨[row], hevents, List.forall_mem_singleton.2 ?_⟩
            cases hok
            rw [wakeUps, hnew, hresult, hbook]
            exact List.mem_singleton.2 rfl
  | commit tx time =>
      cases hstep
      cases hresult : commit db tx time with
      | none => exact ⟨[], (List.append_nil _).symm, List.forall_mem_nil _⟩
      | some result =>
          obtain ⟨answer, final⟩ := result
          rcases events_commitInSavepoint hresult with
            hsame | ⟨hreserved, -, ⟨value, hdraft⟩, row, hevents, hbook⟩
          · exact ⟨[], hsame.trans (List.append_nil _).symm, List.forall_mem_nil _⟩
          · refine ⟨[row], hevents, List.forall_mem_singleton.2 ?_⟩
            rw [wakeUps, hreserved, hdraft, hbook]
            exact List.mem_singleton.2 rfl
  | commitBatch drafts =>
      cases hstep
      cases hresult : commitBatch db drafts with
      | none => exact ⟨[], (List.append_nil _).symm, List.forall_mem_nil _⟩
      | some result =>
          obtain ⟨answers, final⟩ := result
          obtain ⟨rows, hevents, hbooks⟩ := events_commitBatch hresult
          refine ⟨rows, hevents, fun row hrow => ?_⟩
          obtain ⟨draft, hdraft, hok, hbook⟩ := hbooks row hrow
          rw [wakeUps, hresult, hbook]
          exact mem_distinctBooks hdraft hok

end WakeUps

theorem Numbered.step {db next : Database} {op : Op} (hnumbered : Numbered db)
    (hstep : step db op = some next) : Numbered next := by
  have hmeets : OpMeets (fun _ _ _ => True) db op := by
    cases op with
    | commitBatch drafts => exact stepsMeet_of_forall fun _ _ => trivial
    | registerAsset asset time => trivial
    | openAccount account cfg time => trivial
    | commit tx time => trivial
  exact step_invariant
    (fun db name books time next hnumbered _ hwrites => hnumbered.writes hwrites) hnumbered hmeets
    hstep

end Talea.Sqlite
