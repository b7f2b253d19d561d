import Talea.Log.Admitted

/-!
# Posting histories

Every posting of a transaction moves the balance of its account by its signed
amount and leaves an entry with the balance it has led to.  What a transaction
does to an account is therefore a function of the account's balance before it
and of its own postings on that account.
-/

namespace Talea.Log

theorem Direction.move_eq_some {direction : Direction} {raw minor next : Int} :
    Direction.move direction raw minor = some next ↔
      I64.InRange (raw + direction.signed minor) ∧ next = raw + direction.signed minor := by
  cases direction with
  | debit => exact I64.checked_eq_some
  | credit => exact I64.checked_eq_some

/-- The entries of postings on one account whose balance is `raw`. -/
def entriesFrom (seq time : Int) (txid : TxId) : Int → List Posting → List PostingEntry
  | _, [] => []
  | raw, posting :: postings =>
      { seq, at' := time, txid, minor := posting.amount.minor, direction := posting.direction
        rawAfter := raw + posting.signed } ::
        entriesFrom seq time txid (raw + posting.signed) postings

/-- The postings on the account with this key. -/
def postingsOn (key : String) (postings : List Posting) : List Posting :=
  postings.filter fun posting => posting.account.toKey = key

def signedSum (postings : List Posting) : Int :=
  (postings.map Posting.signed).sum

@[simp]
theorem signedSum_nil : signedSum [] = 0 := rfl

@[simp]
theorem signedSum_cons (posting : Posting) (postings : List Posting) :
    signedSum (posting :: postings) = posting.signed + signedSum postings := by
  simp [signedSum]

@[simp]
theorem signedSum_append (left right : List Posting) :
    signedSum (left ++ right) = signedSum left + signedSum right := by
  simp [signedSum]

section Entries

variable {seq time : Int} {txid : TxId} {raw : Int}

theorem entriesFrom_append (left right : List Posting) :
    entriesFrom seq time txid raw (left ++ right) =
      entriesFrom seq time txid raw left ++
        entriesFrom seq time txid (raw + signedSum left) right := by
  induction left generalizing raw with
  | nil => simp [entriesFrom]
  | cons posting left ih => simp [entriesFrom, ih, Int.add_assoc]

theorem seq_of_mem_entriesFrom {postings : List Posting} {entry : PostingEntry}
    (hentry : entry ∈ entriesFrom seq time txid raw postings) :
    entry.seq = seq ∧ entry.at' = time := by
  induction postings generalizing raw with
  | nil => simp [entriesFrom] at hentry
  | cons posting postings ih =>
      rcases List.mem_cons.1 hentry with rfl | hrest
      · exact ⟨rfl, rfl⟩
      · exact ih hrest

theorem entriesFrom_eq_nil {postings : List Posting} :
    entriesFrom seq time txid raw postings = [] ↔ postings = [] := by
  cases postings <;> simp [entriesFrom]

/-- The last entry has the balance behind all of the postings. -/
theorem rawAfter_getLast_entriesFrom {postings : List Posting}
    (hne : entriesFrom seq time txid raw postings ≠ []) :
    ((entriesFrom seq time txid raw postings).getLast hne).rawAfter =
      raw + signedSum postings := by
  induction postings generalizing raw with
  | nil => simp [entriesFrom] at hne
  | cons posting postings ih =>
      simp only [entriesFrom]
      by_cases hnil : entriesFrom seq time txid (raw + posting.signed) postings = []
      · rw [entriesFrom_eq_nil] at hnil
        simp [hnil, entriesFrom]
      · rw [List.getLast_cons hnil, ih hnil, signedSum_cons, Int.add_assoc]

end Entries

/-! ## What a transaction does to one account -/

namespace AccountState

/-- The account behind the postings `own` of a transaction on it. -/
structure Moved (acct : AccountState) (seq time : Int) (txid : TxId) (own : List Posting)
    (after : AccountState) : Prop where
  account : after.account = acct.account
  cfg : after.cfg = acct.cfg
  rawBalance : after.rawBalance = acct.rawBalance + signedSum own
  updatedSeq : after.updatedSeq = if own = [] then acct.updatedSeq else seq
  postings : after.postings.flat =
    acct.postings.flat ++ entriesFrom seq time txid acct.rawBalance own

variable {acct : AccountState} {seq time : Int} {txid : TxId}

theorem Moved.nil (acct : AccountState) (seq time : Int) (txid : TxId) :
    acct.Moved seq time txid [] acct where
  account := rfl
  cfg := rfl
  rawBalance := by simp
  updatedSeq := by simp
  postings := by simp [entriesFrom]

theorem Moved.trans {mid after : AccountState} {left right : List Posting}
    (hleft : acct.Moved seq time txid left mid) (hright : mid.Moved seq time txid right after) :
    acct.Moved seq time txid (left ++ right) after where
  account := hright.account.trans hleft.account
  cfg := hright.cfg.trans hleft.cfg
  rawBalance := by
    rw [hright.rawBalance, hleft.rawBalance, signedSum_append, Int.add_assoc]
  updatedSeq := by
    rw [hright.updatedSeq, hleft.updatedSeq]
    by_cases hl : left = [] <;> by_cases hr : right = [] <;> simp [hl, hr]
  postings := by
    rw [hright.postings, hleft.postings, hleft.rawBalance, entriesFrom_append,
      List.append_assoc]

end AccountState

namespace BookState

variable {tx : Transaction} {seq time : Int}

/-- One posting on an account that is there. -/
theorem applyPosting_moved {state next : BookState} {posting : Posting}
    (happly : applyPosting tx seq time state posting = .ok next) {key : String}
    {acct : AccountState} (hacct : state.accounts.lookup key = some acct) :
    ∃ after, next.accounts.lookup key = some after ∧
      acct.Moved seq time tx.id (postingsOn key [posting]) after ∧
      (I64.InRange acct.rawBalance → I64.InRange after.rawBalance) := by
  by_cases hsame : posting.account.toKey = key
  · subst hsame
    rw [applyPosting_of_lookup hacct] at happly
    cases hmove : Direction.move posting.direction acct.rawBalance posting.amount.minor with
    | none => simp [hmove] at happly
    | some raw =>
        rw [hmove] at happly
        cases happly
        obtain ⟨hrange, rfl⟩ := Direction.move_eq_some.1 hmove
        refine ⟨_, Finmap.lookup_insert _, ?_, fun _ => hrange⟩
        constructor <;> simp [postingsOn, entriesFrom, PostingIndex.flat_push, Posting.signed]
  · have hkept : next.accounts.lookup key = some acct := by
      cases hother : state.accounts.lookup posting.account.toKey with
      | none =>
          rw [applyPosting, hother] at happly
          cases happly
          exact hacct
      | some other =>
          rw [applyPosting_of_lookup hother] at happly
          cases hmove : Direction.move posting.direction other.rawBalance posting.amount.minor with
          | none => simp [hmove] at happly
          | some raw =>
              rw [hmove] at happly
              cases happly
              dsimp only
              rw [HashMap.lookup_insert_ite, if_neg (Ne.symm hsame), hacct]
    refine ⟨acct, hkept, ?_, fun h => h⟩
    have hnone : postingsOn key [posting] = [] := by simp [postingsOn, hsame]
    rw [hnone]
    exact .nil acct seq time tx.id

theorem applyPostings_moved {state next : BookState} {postings : List Posting}
    (happly : postings.foldlM (applyPosting tx seq time) state = .ok next) {key : String}
    {acct : AccountState} (hacct : state.accounts.lookup key = some acct) :
    ∃ after, next.accounts.lookup key = some after ∧
      acct.Moved seq time tx.id (postingsOn key postings) after ∧
      (I64.InRange acct.rawBalance → I64.InRange after.rawBalance) := by
  induction postings generalizing state acct with
  | nil =>
      cases happly
      exact ⟨acct, hacct, .nil acct seq time tx.id, fun h => h⟩
  | cons posting postings ih =>
      rw [List.foldlM_cons, Except.bind_eq_ok] at happly
      obtain ⟨mid, hposting, hrest⟩ := happly
      obtain ⟨first, hfirst, hmoved, hrange⟩ := applyPosting_moved hposting hacct
      obtain ⟨after, hafter, hmoved', hrange'⟩ := ih hrest hfirst
      refine ⟨after, hafter, ?_, fun h => hrange' (hrange h)⟩
      have hsplit : postingsOn key (posting :: postings) =
          postingsOn key [posting] ++ postingsOn key postings := by
        rw [← List.singleton_append, postingsOn, List.filter_append]
        rfl
      rw [hsplit]
      exact hmoved.trans hmoved'

/-- A transaction moves each account by its postings on it. -/
theorem tryApplyTransaction_moved {state next : BookState} {pos : FramePos}
    (happly : state.tryApplyTransaction tx seq time pos = .ok next) {key : String}
    {acct : AccountState} (hacct : state.accounts.lookup key = some acct) :
    ∃ after, next.accounts.lookup key = some after ∧
      acct.Moved seq time tx.id (postingsOn key tx.postings) after ∧
      (I64.InRange acct.rawBalance → I64.InRange after.rawBalance) := by
  obtain ⟨mid, hmid, rfl⟩ := tryApplyTransaction_eq_ok.1 happly
  exact applyPostings_moved hmid hacct

/-- The account a state has behind a transaction comes from one before it. -/
theorem moved_of_lookup {state next : BookState} {pos : FramePos}
    (happly : state.tryApplyTransaction tx seq time pos = .ok next) {key : String}
    {after : AccountState} (hafter : next.accounts.lookup key = some after) :
    ∃ acct, state.accounts.lookup key = some acct ∧
      acct.Moved seq time tx.id (postingsOn key tx.postings) after ∧
      (I64.InRange acct.rawBalance → I64.InRange after.rawBalance) := by
  obtain ⟨acct, hacct, -⟩ := (sameAccounts_tryApplyTransaction happly).lookup_eq_some hafter
  obtain ⟨after', hafter', hmoved⟩ := tryApplyTransaction_moved happly hacct
  rw [hafter] at hafter'
  cases hafter'
  exact ⟨acct, hacct, hmoved⟩

end BookState

end Talea.Log
