import Talea.Postgres.Contract

/-!
# Rules for statements

What a transaction has written up to a statement boundary is a row of
operations that may come next, together with what it has found out for the one
it is at.  One rule takes a script through a statement, and through whatever
others do before it; two more take it through the ends of a transaction.
-/

namespace Talea.Postgres

open Sql

/-- The writes of a transaction are those of some operations that may come
next. -/
structure Holding (exact : Prop) (ops : List Op) (shared : Shared) (writes : List Write) : Prop where
  chain : Chain exact shared.db ops
  same : ∀ db, view db writes = view db (opWrites ops)
  locks : ∀ lock ∈ locks (opWrites ops), lock ∈ locks writes
  past : ∀ op ∈ ops, op.event.at' ≤ shared.clock
  events : eventRows writes = ops.map Op.event
  notified : ∀ op ∈ ops, op.event.book ∈ notified writes

section Holding

variable {exact : Prop} {ops : List Op} {held : List Lock} {shared later : Shared}
  {writes more : List Write} {tx : Tx}

theorem Holding.nil : Holding exact [] shared [] where
  chain := trivial
  same _ := rfl
  locks := nofun
  past := nofun
  events := rfl
  notified := nofun

theorem locks_append : Postgres.locks (writes ++ more) = Postgres.locks writes ++ Postgres.locks more :=
  List.flatMap_append

theorem Holding.grown (hholding : Holding exact ops shared writes)
    (hgrown : Grown held shared later) (hheld : ∀ lock ∈ Postgres.locks writes, lock ∈ held) :
    Holding exact ops later writes :=
  { hholding with
    chain := hholding.chain.respects hgrown.respects fun lock hlock =>
      hheld lock (hholding.locks lock hlock)
    past := fun op hop => (hholding.past op hop).trans hgrown.clock }

/-- The ledger as the transaction sees it. -/
theorem Holding.ledger (hholding : Holding exact ops shared writes)
    (hinv : Consistent exact shared) : Ledger exact (view shared.db writes) := by
  rw [hholding.same]
  exact hholding.chain.ledger hinv.ledger

theorem Holding.past_view (hholding : Holding exact ops shared writes)
    (hinv : Consistent exact shared) :
    ∀ row ∈ (view shared.db writes).events, row.at' ≤ shared.clock := by
  intro row hrow
  rw [events_view, hholding.events, List.mem_append, List.mem_map] at hrow
  rcases hrow with hold | ⟨op, hop, rfl⟩
  · exact hinv.past row hold
  · exact hholding.past op hop

theorem Holding.committed (hholding : Holding exact ops shared tx.writes)
    (hinv : Consistent exact shared) : Consistent exact (tx.committed shared) where
  ledger := hholding.ledger hinv
  past := hholding.past_view hinv
  commits := by
    change (view shared.db tx.writes).events = (shared.commits ++ [_]).flatMap _
    rw [events_view, List.flatMap_append, ← hinv.commits, List.flatMap_singleton]
  notified commit hcommit row hrow := by
    rcases List.mem_append.1 hcommit with hold | hnew
    · exact hinv.notified commit hold row hrow
    · cases List.mem_singleton.1 hnew
      have hevents : row ∈ ops.map Op.event := hholding.events ▸ hrow
      obtain ⟨op, hop, rfl⟩ := List.mem_map.1 hevents
      exact hholding.notified op hop

/-- The next operation joins the row when its writes have been made. -/
theorem Holding.concat (hholding : Holding exact ops shared writes) {op : Op}
    (henabled : Enabled exact (view shared.db writes) op) (hpast : op.event.at' ≤ shared.clock) :
    Holding exact (ops ++ [op]) shared (writes ++ op.writes) := by
  have hsingle : opWrites [op] = op.writes := List.append_nil _
  refine ⟨chain_append.2 ⟨hholding.chain, ?_, trivial⟩, fun db => ?_, fun lock hlock => ?_,
    fun other hother => ?_, ?_, fun other hother => ?_⟩
  · rwa [← hholding.same]
  · rw [view_append, opWrites_append, view_append, hholding.same, hsingle]
  · rw [opWrites_append, locks_append, hsingle] at hlock
    rw [locks_append]
    exact List.mem_append.2 ((List.mem_append.1 hlock).imp_left (hholding.locks lock))
  · rcases List.mem_append.1 hother with hold | hnew
    · exact hholding.past other hold
    · cases List.mem_singleton.1 hnew
      exact hpast
  · have hevents : eventRows op.writes = [op.event] := by
      cases op with
      | registered asset seq time => rfl
      | opened account cfg seq time => rfl
      | posted tx seq time balances => simp [Op.writes, Op.rows, eventRows, Op.event]
    rw [eventRows, List.filterMap_append, List.map_append, List.map_singleton, ← hevents,
      ← hholding.events]
    rfl
  · rw [Postgres.notified, List.filterMap_append, List.mem_append]
    rcases List.mem_append.1 hother with hold | hnew
    · exact Or.inl (hholding.notified other hold)
    · cases List.mem_singleton.1 hnew
      refine Or.inr (List.mem_filterMap.2 ⟨.notify op.event.book, ?_, rfl⟩)
      exact List.mem_append_right _ (List.mem_cons_of_mem _ List.mem_cons_self)

end Holding

/-! ## Counters come first -/

section CountersFirst

variable {writes more : List Write}

theorem CountersFirst.nil : CountersFirst [] := by
  intro count row hrow
  rw [List.take_nil] at hrow
  cases hrow

theorem CountersFirst.take (hfirst : CountersFirst writes) (count : ℕ) :
    CountersFirst (writes.take count) := by
  intro fewer row hrow
  rw [List.take_take] at hrow ⊢
  exact hfirst _ row hrow

theorem CountersFirst.append (hfirst : CountersFirst writes)
    (hmore : ∀ row, Write.event row ∈ more → .counter row.book ∈ locks writes) :
    CountersFirst (writes ++ more) := by
  intro count row hrow
  rw [List.take_append] at hrow ⊢
  rw [locks_append, List.mem_append]
  rcases List.mem_append.1 hrow with hold | hnew
  · exact Or.inl (hfirst count row hold)
  · refine Or.inl ?_
    have hcount : writes.length ≤ count := by
      by_contra hlt
      rw [Nat.sub_eq_zero_of_le (by omega), List.take_zero] at hnew
      cases hnew
    rw [List.take_of_length_le hcount]
    exact hmore row (List.mem_of_mem_take hnew)

end CountersFirst

/-! ## Scripts in a transaction -/

/-- A script is safe, and ends in a value or in a fault as it should. -/
def SafeDb {α : Type} (exact inserts : Prop) (post : α → Shared → Tx → Prop)
    (fault : Fault → Shared → Tx → Prop) (body : Db α) (shared : Shared) (tx : Tx) : Prop :=
  Safe server (contract exact inserts)
    (fun result shared tx =>
      match result with
      | .ok value => post value shared tx
      | .error error => fault error shared tx)
    body.run shared tx

/-- A statement that neither opens nor ends a transaction, nor sets or undoes a
savepoint. -/
def Statement.IsQuery : Statement → Prop
  | .begin | .commit | .rollback | .savepoint | .release | .rollbackTo => False
  | _ => True

theorem exec_query (shared : Shared) (writes : List Write) (marks : List ℕ)
    {statement : Statement} (hquery : statement.IsQuery) :
    exec shared ⟨writes, marks, false⟩ statement =
      match statement.run (view shared.db writes) shared.clock with
      | .ok (rows, new) => (.ok rows, shared, ⟨writes ++ new, marks, false⟩)
      | .error error => (.error error, shared, ⟨writes, marks, true⟩) := by
  cases statement <;> first | rfl | cases hquery

/-! ## Statements around transactions -/

section Around

variable {exact inserts : Prop} {α : Type} {post : α → Shared → Tx → Prop} {shared : Shared}
  {own : Tx}

/-- The end of a program. -/
theorem safe_return (holds : Shared → Prop) {value : α} (hholds : holds shared)
    (hstable : ∀ shared later, holds shared → Grown (locks own.writes) shared later → holds later)
    (hpost : ∀ shared, holds shared → post value shared own) (hinv : Consistent exact shared) :
    Safe server (contract exact inserts) post (pure value) shared own :=
  fun later hrely _ => hpost later (hstable shared later hholds (grown_of_rely hinv hrely))

/-- A statement that opens or drops a transaction, or sets, undoes or forgets a
savepoint. -/
theorem safe_moved (statement : Statement) (answer : statement.Reply) (own' : Tx)
    (holds : Shared → Prop) {next : statement.Reply → Script α} (hholds : holds shared)
    (hstable : ∀ shared later, holds shared → Grown (locks own.writes) shared later → holds later)
    (hexec : ∀ shared, exec shared own statement = (answer, shared, own'))
    (hown : CountersFirst own'.writes)
    (hnext : ∀ shared, Consistent exact shared → holds shared →
      Safe server (contract exact inserts) post (next answer) shared own')
    (hinv : Consistent exact shared) :
    Safe server (contract exact inserts) post (Program.send statement >>= next) shared own := by
  intro later hrely hlater _
  have hnow := hstable shared later hholds (grown_of_rely hinv hrely)
  change Consistent exact (exec later own statement).2.1 ∧
    CountersFirst (exec later own statement).2.2.writes ∧
      Safe server (contract exact inserts) _ (next (exec later own statement).1)
        (exec later own statement).2.1 (exec later own statement).2.2
  rw [hexec later]
  exact ⟨hlater, hown, hnext later hlater hnow⟩

/-- A commit of operations that may come next. -/
theorem safe_committed (ops : List Op) (holds : Shared → Prop) {writes : List Write}
    {marks : List ℕ} {next : Statement.commit.Reply → Script α} (hholds : holds shared)
    (hstable : ∀ shared later, holds shared → Grown (locks writes) shared later → holds later)
    (hholding : ∀ shared, holds shared → Holding exact ops shared writes)
    (hnext : ∀ shared committed, holds shared →
      committed = Tx.committed ⟨writes, marks, false⟩ shared → Consistent exact committed →
      Safe server (contract exact inserts) post (next (.ok ())) committed .idle)
    (hinv : Consistent exact shared) :
    Safe server (contract exact inserts) post (Program.send .commit >>= next) shared
      ⟨writes, marks, false⟩ := by
  intro later hrely hlater _
  have hnow := hstable shared later hholds (grown_of_rely hinv hrely)
  have hcommitted : Consistent exact (Tx.committed ⟨writes, marks, false⟩ later) :=
    (hholding later hnow).committed hlater
  exact ⟨hcommitted, CountersFirst.nil, hnext later _ hnow rfl hcommitted⟩

end Around

namespace SafeDb

variable {exact inserts : Prop} {α β : Type} {post : α → Shared → Tx → Prop}
  {post' : β → Shared → Tx → Prop} {fault : Fault → Shared → Tx → Prop} {shared : Shared} {tx : Tx}

theorem bind {body : Db α} {next : α → Db β}
    (hbody : SafeDb exact inserts post fault body shared tx)
    (hnext : ∀ value shared tx, Consistent exact shared → CountersFirst tx.writes →
      post value shared tx → SafeDb exact inserts post' fault (next value) shared tx)
    (hinv : Consistent exact shared) (hown : CountersFirst tx.writes) :
    SafeDb exact inserts post' fault (body >>= next) shared tx := by
  refine Safe.bind hbody (fun result shared tx hinv hown hresult => ?_) hinv hown
  cases result with
  | ok value => exact hnext value shared tx hinv hown (hresult shared .refl hinv)
  | error error => exact hresult

theorem mono {fault' : Fault → Shared → Tx → Prop} {post' : α → Shared → Tx → Prop}
    {body : Db α} (hpost : ∀ value shared tx, post value shared tx → post' value shared tx)
    (hfault : ∀ error shared tx, fault error shared tx → fault' error shared tx)
    (hsafe : SafeDb exact inserts post fault body shared tx) :
    SafeDb exact inserts post' fault' body shared tx :=
  Safe.mono (fun result shared tx hresult => by
    cases result with
    | ok value => exact hpost value shared tx hresult
    | error error => exact hfault error shared tx hresult) hsafe

/-- The end of a script. -/
theorem pure (holds : Shared → Prop) {value : α} (hholds : holds shared)
    (hstable : ∀ shared later, holds shared → Grown (locks tx.writes) shared later → holds later)
    (hpost : ∀ shared, holds shared → post value shared tx) (hinv : Consistent exact shared) :
    SafeDb exact inserts post fault (Pure.pure value) shared tx :=
  fun later hrely _ => hpost later (hstable shared later hholds (grown_of_rely hinv hrely))

theorem throw (holds : Shared → Prop) {error : Fault} (hholds : holds shared)
    (hstable : ∀ shared later, holds shared → Grown (locks tx.writes) shared later → holds later)
    (hfault : ∀ shared, holds shared → fault error shared tx) (hinv : Consistent exact shared) :
    SafeDb (α := α) exact inserts post fault (MonadExcept.throw error) shared tx :=
  fun later hrely _ => hfault later (hstable shared later hholds (grown_of_rely hinv hrely))

/-- A query and what comes behind it.  `holds` is what is known before it, and
stays known whatever others do; the query may go wrong. -/
theorem query (holds : Shared → Prop) {writes : List Write} {marks : List ℕ}
    {statement : Statement} {next : statement.Rows → Db α}
    (hholds : holds shared)
    (hstable : ∀ shared later, holds shared → Grown (locks writes) shared later → holds later)
    (hquery : statement.IsQuery)
    (hnext : ∀ shared rows new, Consistent exact shared → holds shared →
      (contract exact inserts).Cond shared ⟨writes, marks, false⟩ statement →
      statement.run (view shared.db writes) shared.clock = .ok (rows, new) →
      CountersFirst (writes ++ new) ∧
        SafeDb exact inserts post fault (next rows) shared ⟨writes ++ new, marks, false⟩)
    (hfault : ∀ before error, Consistent exact before → holds before →
      (contract exact inserts).Cond before ⟨writes, marks, false⟩ statement →
      statement.run (view before.db writes) before.clock = .error error →
      ∀ shared, holds shared → fault error shared ⟨writes, marks, true⟩)
    (hinv : Consistent exact shared) (hown : CountersFirst writes) :
    SafeDb exact inserts post fault (statement.send >>= next) shared ⟨writes, marks, false⟩ := by
  intro later hrely hlater hcond
  have hnow := hstable shared later hholds (grown_of_rely hinv hrely)
  change Consistent exact (exec later ⟨writes, marks, false⟩ statement).2.1 ∧
    CountersFirst (exec later ⟨writes, marks, false⟩ statement).2.2.writes ∧
      Safe server (contract exact inserts) _
        (ExceptT.bindCont next (exec later ⟨writes, marks, false⟩ statement).1)
        (exec later ⟨writes, marks, false⟩ statement).2.1
        (exec later ⟨writes, marks, false⟩ statement).2.2
  rw [exec_query later writes marks hquery]
  cases hrun : statement.run (view later.db writes) later.clock with
  | ok result =>
      obtain ⟨rows, new⟩ := result
      obtain ⟨hfirst, hsafe⟩ := hnext later rows new hlater hnow hcond hrun
      exact ⟨hlater, hfirst, hsafe⟩
  | error error =>
      exact ⟨hlater, hown, fun final hfinal _ =>
        hfault later error hlater hnow hcond hrun final
          (hstable later final hnow (grown_of_rely hlater hfinal))⟩

/-- A commit of operations that may come next. -/
theorem commit (ops : List Op) (holds : Shared → Prop) {writes : List Write} {marks : List ℕ}
    {next : Unit → Db α} (hholds : holds shared)
    (hstable : ∀ shared later, holds shared → Grown (locks writes) shared later → holds later)
    (hholding : ∀ shared, holds shared → Holding exact ops shared writes)
    (hnext : ∀ shared committed, holds shared →
      committed = Tx.committed ⟨writes, marks, false⟩ shared → Consistent exact committed →
      SafeDb exact inserts post fault (next ()) committed .idle)
    (hinv : Consistent exact shared) :
    SafeDb exact inserts post fault (Statement.send .commit >>= next) shared
      ⟨writes, marks, false⟩ :=
  safe_committed ops holds hholds hstable hholding hnext hinv

/-- A transaction that is dropped: it starts with nothing, and leaves nothing but
what its body has committed. -/
theorem dropped (results : Except Fault α → Shared → Prop) {body : Db α}
    (hstable : ∀ result shared later, results result shared → Grown [] shared later →
      results result later)
    (hbody : ∀ later, Consistent exact later → Grown [] shared later →
      SafeDb exact inserts (fun value shared _ => results (.ok value) shared)
        (fun error shared _ => results (.error error) shared) body later .idle)
    (hinv : Consistent exact shared) :
    Safe server (contract exact inserts) (fun result shared tx => results result shared ∧ tx = .idle)
      (Postgres.dropped body) shared tx := by
  intro later hrely hlater _
  have hgrown : Grown [] shared later := (grown_of_rely hinv hrely).mono nofun
  refine ⟨hlater, CountersFirst.nil, ?_⟩
  change Safe server (contract exact inserts) _
    (ExceptT.run body >>= fun result => Program.send Statement.rollback >>= fun _ =>
      Pure.pure result) later .idle
  refine Safe.bind (hbody later hlater hgrown) (fun result shared tx hinv _ hresult => ?_) hlater
    CountersFirst.nil
  intro later hrely hlater _
  have hresults : results result later := by
    have hpost := hresult later hrely hlater
    cases result <;> exact hpost
  exact ⟨hlater, CountersFirst.nil, fun final hfinal _ =>
    ⟨hstable result later final hresults (grown_of_rely hlater hfinal), rfl⟩⟩

end SafeDb

end Talea.Postgres
