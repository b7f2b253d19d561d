import Talea.Postgres.Rules

/-!
# Registering assets and opening accounts

Both calls look, insert, and append an event under the book's counter.  A call
whose insert meets no row ends with its definition stored, or with the news that
another one is.
-/

namespace Talea.Postgres

open Sql

section Append

variable {exact inserts : Prop} {shared : Shared}

theorem Claims.not_conflict {db : Database} {book : String} {seq time : Int}
    (hclaims : Claims db book seq time) (hsequenced : Sequenced db) (event : LedgerEvent)
    {later : Database} (hevents : later.events = db.events) :
    eventConflict later ⟨book, seq, time, event⟩ = none := by
  unfold eventConflict
  rw [hevents]
  refine if_neg ?_
  rintro ⟨row, hrow, hbook, hseq⟩
  have hle := hsequenced.seq_le hrow
  have hnext := hclaims.seq
  simp only at hbook hseq
  rw [hbook, hseq, hnext, claimed, claimed] at hle
  omega

/-- A claim that has just been made. -/
theorem claims_of_run {db : Database} {clock : Int} {book : String} {result : Int × Int}
    {new : List Write} (hpast : ∀ row ∈ db.events, row.at' ≤ clock)
    (hrun : (Statement.claimSeqs book 1).run db clock = .ok (result, new)) :
    result.2 = clock ∧ new = [.counter book result.1] ∧ Claims db book result.1 result.2 := by
  unfold Statement.run at hrun
  dsimp only at hrun
  split at hrun
  · cases hrun
    exact ⟨rfl, rfl, rfl, fun row hrow _ => hpast row hrow⟩
  · cases hrun

theorem run_claimSeqs_error {db : Database} {clock : Int} {book : String} {count : Int}
    {error : Fault} (hrun : (Statement.claimSeqs book count).run db clock = .error error) :
    ¬ I64.InRange (claimed db book count) := by
  unfold Statement.run at hrun
  dsimp only at hrun
  split at hrun
  · cases hrun
  · assumption

theorem run_insertEvent (db : Database) (clock : Int) (row : EventRow) :
    (Statement.insertEvents [row]).run db clock =
      match eventConflict db row with
      | some fault => .error fault
      | none => .ok ((), [.event row]) := by
  change (insertRows .event eventConflict db [row]).map _ = _
  rw [insertRows]
  cases eventConflict db row <;> rfl

theorem run_insertAsset {db : Database} {clock : Int} {asset : AssetDef} {rows : Unit}
    {new : List Write} (hrun : (Statement.insertAsset asset).run db clock = .ok (rows, new)) :
    db.assets.lookup asset.id.id = none ∧ new = [.asset asset] := by
  unfold Statement.run at hrun
  dsimp only at hrun
  split at hrun
  · cases hrun
  · next hnone =>
      cases hrun
      exact ⟨hnone, rfl⟩

theorem run_insertAsset_error {db : Database} {clock : Int} {asset : AssetDef} {fault : Fault}
    (hrun : (Statement.insertAsset asset).run db clock = .error fault) :
    db.assets.lookup asset.id.id ≠ none := by
  unfold Statement.run at hrun
  dsimp only at hrun
  split at hrun
  · next hsome =>
      rw [hsome]
      nofun
  · cases hrun

theorem run_insertAccount {db : Database} {clock : Int} {key : String} {row : AccountRow}
    {rows : Unit} {new : List Write}
    (hrun : (Statement.insertAccount key row).run db clock = .ok (rows, new)) :
    db.accounts.lookup key = none ∧ new = [.account key row] := by
  unfold Statement.run at hrun
  dsimp only at hrun
  split at hrun
  · cases hrun
  · next hnone =>
      cases hrun
      exact ⟨hnone, rfl⟩

theorem run_insertAccount_error {db : Database} {clock : Int} {key : String} {row : AccountRow}
    {fault : Fault} (hrun : (Statement.insertAccount key row).run db clock = .error fault) :
    db.accounts.lookup key ≠ none := by
  unfold Statement.run at hrun
  dsimp only at hrun
  split at hrun
  · next hsome =>
      rw [hsome]
      nofun
  · cases hrun

/-- The writes of one operation, in whatever order they are made. -/
theorem Holding.single {op : Op} {writes : List Write} (henabled : Enabled exact shared.db op)
    (hpast : op.event.at' ≤ shared.clock) (hsame : ∀ db, view db writes = view db op.writes)
    (hlocks : ∀ lock ∈ Postgres.locks op.writes, lock ∈ Postgres.locks writes)
    (hevents : eventRows writes = [op.event])
    (hnotified : op.event.book ∈ Postgres.notified writes) :
    Holding exact [op] shared writes := by
  have hsingle : opWrites [op] = op.writes := List.append_nil _
  refine ⟨⟨henabled, trivial⟩, fun db => ?_, fun lock hlock => ?_, fun other hother => ?_, hevents,
    fun other hother => ?_⟩
  · rw [hsingle, hsame]
  · rw [hsingle] at hlock
    exact hlocks lock hlock
  · cases List.mem_singleton.1 hother
    exact hpast
  · cases List.mem_singleton.1 hother
    exact hnotified

/-- Behind the insert of a registry row: claim a number, append the event,
notify, commit. -/
theorem safe_append (op : Int → Int → Op) (fresh : Shared → Prop)
    (results : Except Fault Unit → Shared → Prop) {book : Book} {event : LedgerEvent}
    {first : Write} (hrows : ∀ seq time, (op seq time).rows = [first])
    (hevent : ∀ seq time, (op seq time).event = ⟨book.name, seq, time, event⟩)
    (hbooks : ∀ db, (first.apply db).books = db.books)
    (hevents : ∀ db, (first.apply db).events = db.events)
    (hcomm : ∀ db seq, Write.apply (first.apply db) (.counter book.name seq) =
      first.apply (Write.apply db (.counter book.name seq)))
    (hrow : ∀ row, first ≠ .event row)
    (hfresh : fresh shared)
    (hstable : ∀ shared later, fresh shared → Grown (locks [first]) shared later → fresh later)
    (henabled : ∀ shared seq time, fresh shared → Claims shared.db book.name seq time →
      Enabled exact shared.db (op seq time))
    (hresult : ∀ shared committed seq time, fresh shared →
      committed.db = view shared.db (op seq time).writes → results (.ok ()) committed)
    (hfault : ∀ error shared, ¬ inserts → results (.error error) shared)
    (hkeeps : ∀ shared later, results (.ok ()) shared → Grown [] shared later →
      results (.ok ()) later)
    (hinv : Consistent exact shared) :
    SafeDb exact inserts (fun value shared _ => results (.ok value) shared)
      (fun error shared _ => results (.error error) shared)
      (do
        let (seq, time) ← nextSeq book.name
        insertEvent book.name seq time event
        notify book
        let _ ← Statement.send .commit
        return ())
      shared ⟨[first], [], false⟩ := by
  have hfirst : CountersFirst [first] :=
    CountersFirst.nil.append fun row hmem => absurd (List.mem_singleton.1 hmem) (hrow row).symm
  refine SafeDb.query fresh hfresh hstable trivial ?_ ?_ hinv hfirst
  · -- the number is claimed
    intro shared claim new hinv hfresh _ hrun
    obtain ⟨seq, time⟩ := claim
    have hview : ∀ db count, claimed (first.apply db) book.name count =
        claimed db book.name count := by
      intro db count
      rw [claimed, claimed, hbooks]
    obtain ⟨htime, hnew, hclaims⟩ := claims_of_run (by
      intro row hrow
      rw [view_cons, view_nil, hevents] at hrow
      exact hinv.past row hrow) hrun
    have hclaims : Claims shared.db book.name seq time := by
      refine ⟨hclaims.seq.trans (hview _ _), fun row hrow hbook => hclaims.time row ?_ hbook⟩
      rw [view_cons, view_nil, hevents]
      exact hrow
    dsimp only at htime hnew
    subst hnew
    have hafter : ∀ db, (view db ([first] ++ [.counter book.name seq])).events = db.events :=
      fun db => hevents db
    have hcounter : CountersFirst [first, .counter book.name seq] :=
      CountersFirst.append hfirst fun row hmem =>
        Write.noConfusion (List.mem_singleton.1 hmem)
    refine ⟨hcounter, ?_⟩
    have hstay : ∀ {writes : List Write},
        (∀ lock ∈ locks [first, .counter book.name seq], lock ∈ locks writes) →
        ∀ shared later, fresh shared ∧ Claims shared.db book.name seq time ∧ time ≤ shared.clock →
          Grown (locks writes) shared later →
            fresh later ∧ Claims later.db book.name seq time ∧ time ≤ later.clock := by
      intro writes hsub shared later hholds hgrown
      refine ⟨hstable shared later hholds.1 (hgrown.mono fun lock hlock => hsub lock ?_),
        hholds.2.1.respects hgrown.respects (hsub _ ?_), hholds.2.2.trans hgrown.clock⟩
      · obtain ⟨write, hwrite, hlock⟩ := List.mem_flatMap.1 hlock
        exact mem_locks (List.mem_cons.2 (Or.inl (List.mem_singleton.1 hwrite))) hlock
      · exact mem_locks (List.mem_cons_of_mem _ (List.mem_singleton.2 rfl))
          (List.mem_singleton.2 rfl)
    let claimedAt := fun shared : Shared =>
      fresh shared ∧ Claims shared.db book.name seq time ∧ time ≤ shared.clock
    have hholds : claimedAt shared := ⟨hfresh, hclaims, htime.le⟩
    refine SafeDb.query claimedAt hholds (hstay fun _ => id) trivial ?_ ?_ hinv hcounter
    · -- the event is appended
      intro shared rows new hinv hholds _ hrun
      rw [run_insertEvent, hholds.2.1.not_conflict hinv.ledger.sequenced event
        (hafter shared.db)] at hrun
      cases hrun
      have hevent' : CountersFirst ([first, .counter book.name seq] ++
          [.event ⟨book.name, seq, time, event⟩]) :=
        hcounter.append fun row hmem => by
          cases List.mem_singleton.1 hmem
          exact mem_locks (List.mem_cons_of_mem _ (List.mem_singleton.2 rfl))
            (List.mem_singleton.2 rfl)
      refine ⟨hevent', ?_⟩
      refine SafeDb.query claimedAt hholds (hstay fun lock hlock => ?_) trivial ?_ ?_ hinv hevent'
      · rw [locks_append]
        exact List.mem_append_left _ hlock
      · -- the book is notified
        intro shared rows new hinv hholds _ hrun
        cases hrun
        have hnotify : CountersFirst ([first, .counter book.name seq] ++
            [.event ⟨book.name, seq, time, event⟩] ++ [.notify book.name]) :=
          hevent'.append fun row hmem => Write.noConfusion (List.mem_singleton.1 hmem)
        refine ⟨hnotify, ?_⟩
        have hsame : ∀ db, view db ([first, .counter book.name seq] ++
            [.event ⟨book.name, seq, time, event⟩] ++ [.notify book.name]) =
              view db (op seq time).writes := by
          intro db
          rw [Op.writes, hrows, hevent]
          simp only [List.cons_append, List.nil_append, view_cons, view_nil, hcomm]
        refine SafeDb.commit [op seq time] claimedAt hholds (hstay fun lock hlock => ?_)
          (fun shared hholds => ?_) (fun shared committed hholds hcommitted hinv => ?_) hinv
        · rw [locks_append, locks_append]
          exact List.mem_append_left _ (List.mem_append_left _ hlock)
        · refine Holding.single (henabled shared seq time hholds.1 hholds.2.1) ?_ hsame
            (fun lock hlock => ?_) ?_ ?_
          · rw [hevent]
            exact hholds.2.2
          · rw [Op.writes, hrows, hevent] at hlock
            obtain ⟨write, hwrite, hlock⟩ := List.mem_flatMap.1 hlock
            refine mem_locks ?_ hlock
            simp only [List.cons_append, List.nil_append, List.mem_cons] at hwrite ⊢
            tauto
          · rw [hevent]
            cases first with
            | event row => exact absurd rfl (hrow row)
            | _ => rfl
          · rw [hevent]
            exact List.mem_filterMap.2 ⟨.notify book.name, by simp, rfl⟩
        · refine SafeDb.pure (results (.ok ())) ?_ hkeeps (fun _ hresult => hresult) hinv
          refine hresult shared committed seq time hholds.1 ?_
          rw [hcommitted, ← hsame]
          rfl
      · intro before error _ _ _ hrun
        cases hrun
    · intro before error hbefore hholds _ hrun
      rw [run_insertEvent, hholds.2.1.not_conflict hbefore.ledger.sequenced event
        (hafter before.db)] at hrun
      cases hrun
  · intro before error _ _ hcond hrun shared _
    refine hfault error shared fun hinserts => ?_
    exact run_claimSeqs_error hrun (hcond.2 hinserts)

end Append

/-- How a call ends that would store a value where another may be stored. -/
def Settled {α : Type} (inserts : Prop) (stored : Option α) (value : α) (what : String) :
    Except Fault Unit → Prop
  | .ok _ => stored = some value
  | .error fault =>
      inserts → fault.error = .alreadyExists what ∧ ∃ other, stored = some other ∧ other ≠ value

theorem Settled.grown {α : Type} {inserts : Prop} {stored later : Option α} {value : α}
    {what : String} (hkeeps : ∀ value, stored = some value → later = some value)
    {result : Except Fault Unit} (hsettled : Settled inserts stored value what result) :
    Settled inserts later value what result := by
  cases result with
  | ok _ => exact hkeeps value hsettled
  | error fault =>
      intro hinserts
      obtain ⟨herror, other, hother, hne⟩ := hsettled hinserts
      exact ⟨herror, other, hkeeps other hother, hne⟩

/-- How a registration ends. -/
def Registered (inserts : Prop) (asset : AssetDef) (result : Except Fault Unit)
    (shared : Shared) : Prop :=
  Settled inserts (shared.db.assets.lookup asset.id.id) asset ("asset " ++ asset.id.id) result

def rowOf (account : AccountDef) (cfg : AccountCfg) : AccountRow :=
  ⟨account.asset, account.kind, cfg.normalSide, cfg.minBalance⟩

/-- How the opening of an account ends. -/
def Opened (inserts : Prop) (account : AccountDef) (cfg : AccountCfg)
    (result : Except Fault Unit) (shared : Shared) : Prop :=
  Settled inserts (shared.db.accounts.lookup account.id.toKey) (rowOf account cfg)
    ("account " ++ account.id.toKey) result

section Calls

variable {exact inserts : Prop} {shared : Shared}

theorem safe_registerAsset (asset : AssetDef) (hinv : Consistent exact shared) :
    SafeDb exact inserts (fun value shared _ => Registered inserts asset (.ok value) shared)
      (fun fault shared _ => Registered inserts asset (.error fault) shared)
      (registerAsset asset) shared .idle := by
  have hkeeps : ∀ {held : List Lock} (other : AssetDef) (shared later : Shared),
      shared.db.assets.lookup asset.id.id = some other → Grown held shared later →
        later.db.assets.lookup asset.id.id = some other :=
    fun other shared later hother hgrown => hgrown.respects.assets _ _ hother
  refine SafeDb.query (fun _ => True) trivial (fun _ _ _ _ => trivial) trivial
    (fun shared existing new hinv _ _ hrun => ⟨?_, ?_⟩) (fun _ _ _ _ _ hrun => nomatch hrun) hinv
    CountersFirst.nil
  · cases hrun
    exact CountersFirst.nil
  obtain ⟨hexisting, hnew⟩ := Prod.mk.inj (Except.ok.inj hrun)
  subst hnew
  cases existing with
  | some existing =>
      dsimp only
      split
      · next hsame =>
          subst hsame
          exact SafeDb.pure (fun shared => shared.db.assets.lookup existing.id.id = some existing)
            hexisting (hkeeps existing) (fun _ hstored => hstored) hinv
      · next hne =>
          exact SafeDb.throw (fun shared => shared.db.assets.lookup asset.id.id = some existing)
            hexisting (hkeeps existing)
            (fun _ hstored _ => ⟨rfl, existing, hstored, hne⟩) hinv
  | none =>
      refine SafeDb.query (fun _ => True) trivial (fun _ _ _ _ => trivial) trivial
        (fun shared _ new hinv _ _ hrun => ?_) (fun before fault _ _ hcond hrun shared _ => ?_) hinv
        CountersFirst.nil
      · obtain ⟨hfresh, rfl⟩ := run_insertAsset hrun
        refine ⟨CountersFirst.nil.append fun row hmem => (nomatch List.mem_singleton.1 hmem), ?_⟩
        refine safe_append (fun seq time => .registered asset seq time)
          (fun shared => shared.db.assets.lookup asset.id.id = none) (Registered inserts asset)
          (fun _ _ => rfl) (fun _ _ => rfl) (fun _ => rfl) (fun _ => rfl) (fun _ _ => rfl) nofun
          hfresh (fun shared later hnone hgrown => ?_) (fun shared seq time hnone hclaims =>
            ⟨hnone, hclaims⟩) (fun shared committed seq time hnone hcommitted => ?_)
          (fun fault shared hnot hinserts => absurd hinserts hnot) (hkeeps asset) hinv
        · exact (hgrown.respects.asset _ (List.mem_singleton.2 rfl)).trans hnone
        · change committed.db.assets.lookup asset.id.id = some asset
          rw [hcommitted, view_registered, HashMap.lookup_insert_ite, if_pos rfl]
      · exact fun hinserts => absurd (hcond.2 hinserts) (run_insertAsset_error hrun)

theorem safe_openAccount (account : AccountDef) (cfg : AccountCfg)
    (hasset : inserts → (shared.db.assets.lookup account.asset.id).isSome = true)
    (hinv : Consistent exact shared) :
    SafeDb exact inserts (fun value shared _ => Opened inserts account cfg (.ok value) shared)
      (fun fault shared _ => Opened inserts account cfg (.error fault) shared)
      (openAccount account cfg) shared .idle := by
  have hkeeps : ∀ {held : List Lock} (other : AccountRow) (shared later : Shared),
      shared.db.accounts.lookup account.id.toKey = some other → Grown held shared later →
        later.db.accounts.lookup account.id.toKey = some other :=
    fun other shared later hother hgrown => hgrown.respects.accounts _ _ hother
  refine SafeDb.query (fun shared => inserts →
      (shared.db.assets.lookup account.asset.id).isSome = true) hasset
    (fun shared later hholds hgrown hinserts => ?_) trivial
    (fun shared asset new hinv hholds _ hrun => ?_) (fun _ _ _ _ _ hrun => nomatch hrun) hinv
    CountersFirst.nil
  · obtain ⟨row, hrow⟩ := Option.isSome_iff_exists.1 (hholds hinserts)
    rw [hgrown.respects.assets _ _ hrow]
    rfl
  obtain ⟨hasset, hnew⟩ := Prod.mk.inj (Except.ok.inj hrun)
  subst hnew
  refine ⟨CountersFirst.nil, ?_⟩
  cases asset with
  | none =>
      refine SafeDb.throw (fun _ => ¬ inserts) (fun hinserts => ?_) (fun _ _ h _ => h)
        (fun _ hnot hinserts => absurd hinserts hnot) hinv
      have hsome := hholds hinserts
      have hnone : shared.db.assets.lookup account.asset.id = none := hasset
      rw [hnone] at hsome
      cases hsome
  | some asset =>
      refine SafeDb.query (fun _ => True) trivial (fun _ _ _ _ => trivial) trivial
        (fun shared existing new hinv _ _ hrun => ?_) (fun _ _ _ _ _ hrun => nomatch hrun) hinv
        CountersFirst.nil
      obtain ⟨hexisting, hnew⟩ := Prod.mk.inj (Except.ok.inj hrun)
      subst hnew
      refine ⟨CountersFirst.nil, ?_⟩
      cases existing with
      | some existing =>
          dsimp only
          split
          · next hsame =>
              subst hsame
              exact SafeDb.pure (fun shared => shared.db.accounts.lookup account.id.toKey = some _)
                hexisting (hkeeps _) (fun _ hstored => hstored) hinv
          · next hne =>
              exact SafeDb.throw
                (fun shared => shared.db.accounts.lookup account.id.toKey = some existing)
                hexisting (hkeeps existing)
                (fun _ hstored _ => ⟨rfl, existing, hstored, hne⟩) hinv
      | none =>
          refine SafeDb.query (fun _ => True) trivial (fun _ _ _ _ => trivial) trivial
            (fun shared _ new hinv _ _ hrun => ?_) (fun before fault _ _ hcond hrun shared _ => ?_)
            hinv CountersFirst.nil
          · obtain ⟨hfresh, rfl⟩ := run_insertAccount hrun
            refine ⟨CountersFirst.nil.append fun row hmem =>
              (nomatch List.mem_singleton.1 hmem), ?_⟩
            refine safe_append (fun seq time => .opened account cfg seq time)
              (fun shared => shared.db.accounts.lookup account.id.toKey = none)
              (Opened inserts account cfg) (fun _ _ => rfl) (fun _ _ => rfl) (fun _ => rfl) (fun _ => rfl) (fun _ _ => rfl) nofun
              hfresh (fun shared later hnone hgrown => ?_) (fun shared seq time hnone hclaims =>
                ⟨hnone, hclaims⟩) (fun shared committed seq time hnone hcommitted => ?_)
              (fun fault shared hnot hinserts => absurd hinserts hnot) (hkeeps _) hinv
            · exact (hgrown.respects.account _ (List.mem_singleton.2 rfl)).trans hnone
            · change committed.db.accounts.lookup account.id.toKey = some _
              rw [hcommitted, view_opened, HashMap.lookup_insert_ite, if_pos rfl]
              rfl
          · exact fun hinserts => absurd (hcond.2 hinserts) (run_insertAccount_error hrun)

end Calls

end Talea.Postgres
