import Talea.Postgres.FastPath
import Talea.Lib.Steps

/-!
# Runs of the instances

Any number of calls on any number of instances, statement by statement.  What
they commit is one ledger: in every book events are numbered from one on, a key
is taken once, and an answer is the row of its key.  The balances are those of
the postings as long as no batch adds an account up past the 64-bit range.
-/

namespace Talea.Postgres

open Sql

/-- The drafts that a call commits. -/
def Call.drafts : Call → List Transaction
  | .registerAsset _ | .openAccount _ _ => []
  | .commit tx => [tx]
  | .commitBatch txs => txs

/-- How a call has ended that would store a value where another may be stored. -/
def SettledAnswer {α : Type} (inserts : Prop) (stored : Option α) (value : α) (what : String) :
    Except StoreError Unit → Prop
  | .ok _ => stored = some value
  | .error error =>
      inserts → error = .alreadyExists what ∧ ∃ other, stored = some other ∧ other ≠ value

/-- How a call has ended. -/
def Ended (inserts : Prop) (db : Database) : Call → Result → Prop
  | .registerAsset asset, .registered result =>
      SettledAnswer inserts (db.assets.lookup asset.id.id) asset ("asset " ++ asset.id.id) result
  | .openAccount account cfg, .registered result =>
      SettledAnswer inserts (db.accounts.lookup account.id.toKey) (rowOf account cfg)
        ("account " ++ account.id.toKey) result
  | .commit tx, .committed answers => Answers db [tx] answers
  | .commitBatch txs, .committed answers => Answers db txs answers
  | _, _ => False

section Calls

variable {exact inserts : Prop} {shared : Shared} {own : Tx}

theorem Settled.answer {α : Type} {stored : Option α} {value : α} {what : String}
    {result : Except Fault Unit} (hsettled : Settled inserts stored value what result) :
    SettledAnswer inserts stored value what (result.mapError Fault.error) := by
  cases result with
  | ok _ => exact hsettled
  | error fault => exact hsettled

/-- The answer of a call that stores a value in a transaction of its own. -/
theorem safe_registered {α : Type} (stored : Shared → Option α) (value : α) (what : String)
    {body : Db Unit} {post : Result → Shared → Tx → Prop}
    (hkeeps : ∀ shared later value, stored shared = some value → Grown [] shared later →
      stored later = some value)
    (hbody : ∀ later, Consistent exact later → Grown [] shared later →
      SafeDb exact inserts (fun done shared _ => Settled inserts (stored shared) value what (.ok done))
        (fun fault shared _ => Settled inserts (stored shared) value what (.error fault)) body later
        .idle)
    (hpost : ∀ result shared, SettledAnswer inserts (stored shared) value what result →
      post (.registered result) shared .idle)
    (hinv : Consistent exact shared) (hown : CountersFirst own.writes) :
    Safe server (contract exact inserts) post (registered <$> dropped body) shared own := by
  have hgrown : ∀ result shared later, Settled inserts (stored shared) value what result →
      Grown [] shared later → Settled inserts (stored later) value what result :=
    fun result shared later hsettled hgrown =>
      hsettled.grown fun value hstored => hkeeps shared later value hstored hgrown
  refine Safe.bind (SafeDb.dropped (fun result shared => Settled inserts (stored shared) value what
    result) hgrown hbody hinv) (fun result shared own hinv _ hresult => ?_) hinv hown
  obtain ⟨hsettled, rfl⟩ := hresult shared .refl hinv
  exact safe_return (fun shared => Settled inserts (stored shared) value what result) hsettled
    (hgrown result) (fun shared hsettled => hpost _ shared hsettled.answer) hinv

/-- Every call is safe, and ends as it should. -/
theorem safe_program (call : Call) (hstarts : inserts → Openable shared call)
    (hinv : Consistent exact shared) (hown : CountersFirst own.writes) :
    Safe server (contract exact inserts) (fun result shared _ => Ended inserts shared.db call result)
      call.program shared own := by
  cases call with
  | registerAsset asset =>
      exact safe_registered (fun shared => shared.db.assets.lookup asset.id.id) asset
        ("asset " ++ asset.id.id)
        (fun shared later value hstored hgrown => hgrown.respects.assets _ _ hstored)
        (fun later hinv _ => safe_registerAsset asset hinv) (fun _ _ => id) hinv hown
  | openAccount account cfg =>
      change Safe server _ _ (if account.id.book.isReserved then _ else _) _ _
      split
      · next hreserved =>
          refine safe_return (fun _ => ¬ inserts) (fun hinserts => ?_) (fun _ _ h _ => h)
            (fun shared hnot hinserts => absurd hinserts hnot) hinv
          have hopen := (hstarts hinserts).1
          rw [hreserved] at hopen
          cases hopen
      · refine safe_registered (fun shared => shared.db.accounts.lookup account.id.toKey)
          (rowOf account cfg) ("account " ++ account.id.toKey)
          (fun shared later value hstored hgrown => hgrown.respects.accounts _ _ hstored)
          (fun later hinv hgrown => safe_openAccount account cfg (fun hinserts => ?_) hinv)
          (fun _ _ => id) hinv hown
        obtain ⟨asset, hasset⟩ := Option.isSome_iff_exists.1 (hstarts hinserts).2
        rw [hgrown.respects.assets _ _ hasset]
        rfl
  | commit tx =>
      refine Safe.bind (safe_commit hinv hown) (fun answer shared own hinv _ hanswer => ?_) hinv hown
      exact safe_return (fun shared => Answers shared.db [tx] [answer])
        (.cons (hanswer shared .refl hinv) .nil)
        (fun shared later hanswers hgrown => hanswers.mono hgrown.respects.rows) (fun _ => id) hinv
  | commitBatch txs =>
      refine Safe.bind (safe_commitBatchTraced txs hinv hown)
        (fun answers shared own hinv _ hanswers => ?_) hinv hown
      exact safe_return (fun shared => Answers shared.db txs answers) (hanswers shared .refl hinv)
        (fun shared later hanswers hgrown => hanswers.mono hgrown.respects.rows) (fun _ => id) hinv

end Calls

/-! ## Conditions on runs -/

abbrev CallSession := Session Call Statement Statement.Reply Result Tx

/-- A condition on the statement that a session is at. -/
def AtNext (cond : Shared → Tx → Statement → Prop) (shared : Shared) : CallSession → Prop
  | ⟨_, own, .ask statement _⟩ => cond shared own statement
  | ⟨_, _, .done _⟩ => True

/-- A condition on every statement, at the time it runs. -/
def AtStatements (cond : Shared → Tx → Statement → Prop) (world : Instances) : Event → Prop
  | .exec index => ∀ session ∈ world.sessions[index]?, AtNext cond world.shared session
  | .start _ => True
  | .drift _ => True

section Decidable

variable (cond : Shared → Tx → Statement → Prop)
  [∀ shared own statement, Decidable (cond shared own statement)]

instance (shared : Shared) : ∀ session, Decidable (AtNext cond shared session)
  | ⟨_, own, .ask statement _⟩ => inferInstanceAs (Decidable (cond shared own statement))
  | ⟨_, _, .done _⟩ => isTrue trivial

instance (world : Instances) : ∀ event, Decidable (AtStatements cond world event)
  | .exec index => inferInstanceAs (Decidable
      (∀ session ∈ world.sessions[index]?, AtNext cond world.shared session))
  | .start _ => isTrue trivial
  | .drift _ => isTrue trivial

end Decidable

/-- A batch adds no account up past the 64-bit range. -/
abbrev BatchesFit (world : Instances) (event : Event) : Prop :=
  AtStatements SumsFit world event

/-- No `INSERT` into the registry meets a row, no counter is at its end, and
accounts are opened where the checks in front of it pass. -/
def NoLostInsert (world : Instances) : Event → Prop
  | .start call => Openable world.shared call
  | event => AtStatements InsertsNew world event

instance (world : Instances) : ∀ event, Decidable (NoLostInsert world event)
  | .start call => inferInstanceAs (Decidable (Openable world.shared call))
  | .exec index => inferInstanceAs (Decidable (AtStatements InsertsNew world (.exec index)))
  | .drift _ => isTrue trivial

section Runs

variable {exact inserts : Prop} {world next : Instances} {event : Event}

theorem meets_contract (hexact : exact → BatchesFit world event)
    (hinserts : inserts → NoLostInsert world event) :
    world.Meets (contract exact inserts) event := by
  cases event with
  | start call => exact hinserts
  | drift elapsed => trivial
  | exec index =>
      unfold World.Meets
      dsimp only
      cases hsession : world.sessions[index]? with
      | none => trivial
      | some session =>
          obtain ⟨call, own, program⟩ := session
          cases program with
          | done value => trivial
          | ask statement rest =>
              exact ⟨fun h => hexact h _ hsession, fun h => hinserts h _ hsession⟩

/-- What holds of the instances all along. -/
abbrev Sound (exact inserts : Prop) (world : Instances) : Prop :=
  world.Sound server (contract exact inserts) fun call result shared _ =>
    Ended inserts shared.db call result

theorem sound_fresh : Sound exact inserts fresh := by
  have hnone : ∀ (index : ℕ) (session : CallSession), fresh.sessions[index]? ≠ some session := by
    intro index session hsession
    rw [fresh, List.getElem?_nil] at hsession
    cases hsession
  exact ⟨Consistent.start exact, fun i _ left _ _ hleft => absurd hleft (hnone i left),
    fun i session hsession => absurd hsession (hnone i session),
    fun i session hsession => absurd hsession (hnone i session)⟩

theorem Sound.step (hsound : Sound exact inserts world) (hexact : exact → BatchesFit world event)
    (hinserts : inserts → NoLostInsert world event) (hstep : step world event = some next) :
    Sound exact inserts next :=
  World.Sound.step hsound
    (fun call _ hinv hstarts => safe_program call hstarts hinv CountersFirst.nil)
    CountersFirst.nil
    (fun elapsed shared hinv =>
      { hinv with past := fun row hrow => (hinv.past row hrow).trans (by
          change shared.clock ≤ shared.clock + (elapsed : Int)
          omega) })
    (meets_contract hexact hinserts) hstep

/-- A run keeps what holds of the instances, and shows it in every state. -/
theorem statesMeet_sound {cond : Instances → Event → Prop} {holds : Instances → Prop}
    {events : List Event} (hexact : exact → ∀ world event, cond world event → BatchesFit world event)
    (hinserts : inserts → ∀ world event, cond world event → NoLostInsert world event)
    (hholds : ∀ world, Sound exact inserts world → holds world)
    (hmeets : StepsMeet step cond fresh events) : StatesMeet step holds fresh events :=
  statesMeet_of_invariant (fun _ _ _ hsound hcond hstep =>
      hsound.step (fun h => hexact h _ _ hcond) (fun h => hinserts h _ _ hcond) hstep)
    hholds sound_fresh hmeets

end Runs

/-! ## One ledger -/

/-- What the instances have committed is one ledger: the events of each book are
numbered from one on, at times that do not go back, a key is taken once, and
whoever has been answered has been given the row of the key. -/
structure OneLedger (world : Instances) : Prop where
  seqs : ∀ book, (world.shared.db.events.filter fun row => row.book = book).map EventRow.seq =
    (List.range (world.shared.db.events.filter fun row => row.book = book).length).map
      fun i : ℕ => (i : Int) + 1
  times : ∀ book, (world.shared.db.events.filter fun row => row.book = book).Pairwise
    fun left right => left.at' ≤ right.at'
  keys : world.shared.db.transactions.Pairwise fun left right =>
    ¬ (left.book = right.book ∧ left.idempotencyKey = right.idempotencyKey)
  answers : ∀ session ∈ world.sessions, ∀ answers,
    session.program = .done (.committed answers) →
      Answers world.shared.db session.call.drafts answers

/-- The balances are those of the postings, and no account that has been posted
to was below its minimum behind any of the transactions. -/
structure Accounted (db : Database) : Prop where
  balances : ∀ key, rawBalance db key = balanceOf db.postings key
  minimum : ∀ count key row min, db.accounts.lookup key = some row → row.minBalance = some min →
    (∃ posting ∈ db.postings, posting.accountKey = key ∧
      posting.txId ∈ (db.transactions.take count).map TransactionRow.txId) →
    min ≤ adjusted (balanceAfter db count key) row.normalSide

/-- The tables are what the events say, and the events are those of the commits,
each of which has notified the books that it appends to. -/
structure Published (shared : Shared) : Prop where
  registered : ∀ id, shared.db.events.filterMap (registeredAs id) =
    (shared.db.assets.lookup id).toList
  opened : ∀ key, shared.db.events.filterMap (openedAs key) =
    (shared.db.accounts.lookup key).toList
  posted : shared.db.transactions = shared.db.events.filterMap postedAs
  entries : shared.db.postings = shared.db.events.flatMap postingsOf
  ids : shared.db.transactions.Pairwise fun left right => left.txId ≠ right.txId
  commits : shared.db.events = shared.commits.flatMap Commit.rows
  notified : ∀ commit ∈ shared.commits, ∀ row ∈ commit.rows, row.book ∈ commit.books

section Ledger

variable {exact inserts : Prop} {world : Instances}

theorem Sound.ended (hsound : Sound exact inserts world) {session : CallSession}
    (hsession : session ∈ world.sessions) {result : Result}
    (hdone : session.program = .done result) :
    Ended inserts world.shared.db session.call result := by
  obtain ⟨index, hindex⟩ := List.mem_iff_getElem?.1 hsession
  exact World.Sound.done hsound hindex hdone

theorem Sound.oneLedger (hsound : Sound exact inserts world) : OneLedger world where
  seqs := hsound.inv.ledger.sequenced.seqs
  times book := by
    refine (hsound.inv.ledger.sequenced.times.sublist List.filter_sublist).imp_of_mem ?_
    intro left right hleft hright hle
    have hsame : left.book = right.book :=
      (of_decide_eq_true (List.mem_filter.1 hleft).2).trans
        (of_decide_eq_true (List.mem_filter.1 hright).2).symm
    exact hle hsame
  keys := hsound.inv.ledger.keys
  answers session hsession answers hdone := by
    have hended := hsound.ended hsession hdone
    cases hcall : session.call with
    | registerAsset asset =>
        rw [hcall] at hended
        cases hended
    | openAccount account cfg =>
        rw [hcall] at hended
        cases hended
    | commit tx => rwa [hcall] at hended
    | commitBatch txs => rwa [hcall] at hended

theorem Sound.published (hsound : Sound exact inserts world) : Published world.shared where
  registered := hsound.inv.ledger.registered
  opened := hsound.inv.ledger.opened
  posted := hsound.inv.ledger.posted
  entries := hsound.inv.ledger.entries
  ids := hsound.inv.ledger.ids
  commits := hsound.inv.commits
  notified := hsound.inv.notified

theorem Sound.accounted (hsound : Sound True inserts world) : Accounted world.shared.db where
  balances := hsound.inv.ledger.balances trivial
  minimum := hsound.inv.ledger.minimum trivial

end Ledger

/-- Whatever runs, and however sums come out: the log is one ledger, and all that
is stored can be read off it. -/
theorem log_is_the_truth (events : List Event) :
    StatesMeet step (fun world => OneLedger world ∧ Published world.shared) fresh events := by
  have hholds : ∀ world, Sound False False world → OneLedger world ∧ Published world.shared :=
    fun world hsound => ⟨hsound.oneLedger, hsound.published⟩
  have hany : StepsMeet step (fun _ _ => True) fresh events :=
    stepsMeet_of_forall fun _ _ => trivial
  exact statesMeet_sound False.elim False.elim hholds hany

/-- In every run in which no batch adds an account up past the 64-bit range, the
instances keep one ledger with the balances of its postings. -/
theorem commitProtocol (events : List Event) (hfits : StepsMeet step BatchesFit fresh events) :
    StatesMeet step (fun world => OneLedger world ∧ Accounted world.shared.db) fresh events := by
  have hholds : ∀ world, Sound True False world → OneLedger world ∧ Accounted world.shared.db :=
    fun world hsound => ⟨hsound.oneLedger, hsound.accounted⟩
  exact statesMeet_sound (fun _ _ _ => id) False.elim hholds hfits

/-! ### A shop -/

def usd : AssetDef := ⟨⟨"USD"⟩, .fiat, 2, "US dollar"⟩

def cash : AccountDef := ⟨⟨⟨"shop"⟩, "cash"⟩, usd.id, .asset⟩

def sales : AccountDef := ⟨⟨⟨"shop"⟩, "sales"⟩, usd.id, .income⟩

def sale (id : ℕ) (key : String) (minor : Int) (hrange : I64.InRange minor) : Transaction where
  id := ⟨id⟩
  book := ⟨"shop"⟩
  postings :=
    [⟨cash.id, ⟨minor, usd.id, hrange⟩, .debit⟩, ⟨sales.id, ⟨minor, usd.id, hrange⟩, .credit⟩]
  idempotencyKey := ⟨key⟩
  externalRefs := []
  metadata := "null"
  occurredAt := 0

/-- The next statements of a session. -/
def statements (session count : ℕ) : List Event :=
  List.replicate count (.exec session)

/-- A shop with its two accounts. -/
def opened (minBalance : Option Int) : List Event :=
  [.start (.registerAsset usd)] ++ statements 0 8 ++
    [.start (.openAccount cash ⟨some .debit, minBalance⟩), .start (.openAccount sales ⟨none, none⟩)] ++
    statements 1 9 ++ statements 2 9

theorem inRange_hundred : I64.InRange 100 := by
  decide

theorem inRange_most : I64.InRange 9223372036854775807 := by
  decide

/-- Two instances race for a key while a third one commits a batch: the loser
waits for the winner, fails, and looks it up. -/
def race : List Event :=
  opened (some 0) ++
    [.start (.commit (sale 1 "k" 100 inRange_hundred)),
      .start (.commit (sale 2 "k" 100 inRange_hundred)),
      .start (.commitBatch [sale 3 "l" 100 inRange_hundred, sale 4 "m" 100 inRange_hundred])] ++
    statements 3 3 ++ statements 4 3 ++ statements 3 8 ++ statements 5 11 ++ statements 4 7

theorem commitProtocol_race :
    ∃ world, execSteps step fresh race = some world ∧ OneLedger world ∧
      Accounted world.shared.db := by
  have hrun : StepsMeet step BatchesFit fresh race ∧ (execSteps step fresh race).isSome := by
    decide +kernel
  obtain ⟨world, hexec⟩ := Option.isSome_iff_exists.1 hrun.2
  exact ⟨world, hexec, (commitProtocol race hrun.1).last hexec⟩

/-- Two drafts that each fit an `i64`, in one batch. -/
def overflow : List Event :=
  opened none ++
    [.start (.commitBatch
      [sale 1 "k" 9223372036854775807 inRange_most, sale 2 "l" 9223372036854775807 inRange_most])] ++
    statements 3 11

/-- The total of the batch wraps around, and what is committed is no longer the
balance of the postings. -/
theorem commitProtocol_overflow :
    (∃ world, execSteps step fresh overflow = some world ∧
      rawBalance world.shared.db cash.id.toKey = -2 ∧
      balanceOf world.shared.db.postings cash.id.toKey = 18446744073709551614) ∧
    ¬ StatesMeet step (fun world => OneLedger world ∧ Accounted world.shared.db) fresh overflow := by
  have hrun : ∃ world ∈ execSteps step fresh overflow,
      rawBalance world.shared.db cash.id.toKey = -2 ∧
        balanceOf world.shared.db.postings cash.id.toKey = 18446744073709551614 := by
    decide +kernel
  refine ⟨hrun, fun hmeets => ?_⟩
  obtain ⟨world, hexec, hraw, htotal⟩ := hrun
  have hsame := (hmeets.last hexec).2.balances cash.id.toKey
  rw [hraw, htotal] at hsame
  cases hsame

/-! ## One definition -/

/-- A call for an id ends with the definition that is stored, or with the news
that it is another one; of what is stored there is one event. -/
structure OneDefinition (world : Instances) : Prop where
  registered : ∀ session ∈ world.sessions, ∀ asset result,
    session.call = .registerAsset asset → session.program = .done (.registered result) →
      ∃ winner, world.shared.db.assets.lookup asset.id.id = some winner ∧
        world.shared.db.events.filterMap (registeredAs asset.id.id) = [winner] ∧
        result = if winner = asset then .ok ()
          else .error (.alreadyExists ("asset " ++ asset.id.id))
  opened : ∀ session ∈ world.sessions, ∀ account cfg result,
    session.call = .openAccount account cfg → session.program = .done (.registered result) →
      ∃ winner, world.shared.db.accounts.lookup account.id.toKey = some winner ∧
        world.shared.db.events.filterMap (openedAs account.id.toKey) = [winner] ∧
        result = if winner = rowOf account cfg then .ok ()
          else .error (.alreadyExists ("account " ++ account.id.toKey))

theorem SettledAnswer.winner {α : Type} [DecidableEq α] {inserts : Prop} {stored : Option α}
    {value : α} {what : String} {result : Except StoreError Unit}
    (hsettled : SettledAnswer inserts stored value what result) (hinserts : inserts) :
    ∃ winner, stored = some winner ∧
      result = if winner = value then .ok () else .error (.alreadyExists what) := by
  cases result with
  | ok done => exact ⟨value, hsettled, (if_pos rfl).symm⟩
  | error error =>
      obtain ⟨rfl, other, hother, hne⟩ := hsettled hinserts
      exact ⟨other, hother, (if_neg hne).symm⟩

theorem Sound.oneDefinition {exact : Prop} {world : Instances} (hsound : Sound exact True world) :
    OneDefinition world where
  registered session hsession asset result hcall hdone := by
    have hended := hsound.ended hsession hdone
    rw [hcall] at hended
    obtain ⟨winner, hwinner, hresult⟩ := SettledAnswer.winner hended trivial
    refine ⟨winner, hwinner, ?_, hresult⟩
    rw [hsound.inv.ledger.registered, hwinner]
    rfl
  opened session hsession account cfg result hcall hdone := by
    have hended := hsound.ended hsession hdone
    rw [hcall] at hended
    obtain ⟨winner, hwinner, hresult⟩ := SettledAnswer.winner hended trivial
    refine ⟨winner, hwinner, ?_, hresult⟩
    rw [hsound.inv.ledger.opened, hwinner]
    rfl

/-- In every run in which no `INSERT` meets a row that another call has stored
behind the look, calls for one id settle on one definition. -/
theorem registry_settles (events : List Event) (hlooks : StepsMeet step NoLostInsert fresh events) :
    StatesMeet step OneDefinition fresh events :=
  statesMeet_sound False.elim (fun _ _ _ => id) (fun _ hsound => hsound.oneDefinition) hlooks

def dollar : AssetDef := ⟨⟨"USD"⟩, .fiat, 2, "dollar"⟩

/-- Another definition and the same one are looked up behind the winner's
commit. -/
def latecomers : List Event :=
  [.start (.registerAsset usd), .start (.registerAsset dollar), .start (.registerAsset usd)] ++
    statements 1 1 ++ statements 0 8 ++ statements 1 2 ++ statements 2 3

theorem registry_settles_latecomers :
    ∃ world, execSteps step fresh latecomers = some world ∧ OneDefinition world := by
  have hrun : StepsMeet step NoLostInsert fresh latecomers ∧
      (execSteps step fresh latecomers).isSome := by
    decide +kernel
  obtain ⟨world, hexec⟩ := Option.isSome_iff_exists.1 hrun.2
  exact ⟨world, hexec, (registry_settles latecomers hrun.1).last hexec⟩

/-- The error that the registration of an asset has ended with. -/
def registryError (asset : AssetDef) (session : CallSession) : Option StoreError :=
  match session.call, session.program with
  | .registerAsset other, .done (.registered (.error error)) =>
      if other = asset then some error else none
  | _, _ => none

theorem registryError_eq_some {asset : AssetDef} {session : CallSession} {error : StoreError}
    (herror : registryError asset session = some error) :
    session.call = .registerAsset asset ∧
      session.program = .done (.registered (.error error)) := by
  unfold registryError at herror
  split at herror
  · next other found hcall hprogram =>
      split at herror
      · next hsame =>
          cases herror
          exact ⟨hsame ▸ hcall, hprogram⟩
      · cases herror
  · cases herror

/-- Both calls look before either inserts. -/
def lostInsert : List Event :=
  [.start (.registerAsset usd), .start (.registerAsset dollar)] ++ statements 0 2 ++
    statements 1 2 ++ statements 0 6 ++ statements 1 2

/-- The loser is told of a duplicate key, not that the asset exists. -/
theorem registry_lostInsert :
    (∃ world, execSteps step fresh lostInsert = some world ∧ ∃ session ∈ world.sessions,
      session.call = .registerAsset dollar ∧ session.program = .done (.registered (.error
        (.io "duplicate key value violates unique constraint \"assets_pkey\"")))) ∧
    ¬ StatesMeet step OneDefinition fresh lostInsert := by
  have hrun : ∃ world ∈ execSteps step fresh lostInsert, ∃ session ∈ world.sessions[1]?,
      registryError dollar session =
        some (.io "duplicate key value violates unique constraint \"assets_pkey\"") := by
    decide +kernel
  obtain ⟨world, hexec, session, hsession, herror⟩ := hrun
  obtain ⟨hcall, hprogram⟩ := registryError_eq_some herror
  have hmem : session ∈ world.sessions := List.mem_of_getElem? hsession
  refine ⟨⟨world, hexec, session, hmem, hcall, hprogram⟩, fun hmeets => ?_⟩
  obtain ⟨winner, -, -, hresult⟩ := (hmeets.last hexec).registered session hmem _ _ hcall hprogram
  split at hresult
  · cases hresult
  · cases hresult

end Talea.Postgres
