import Talea.Core.Store
import Talea.Lib.ExceptFold

/-!
# Seed files

A seed file lists assets and accounts.  Its validation looks at the file alone:
no field may be blank, no book reserved, and no asset or account listed twice.
Two accounts count as one when book and path, put together with a colon between
them, are one text.
-/

namespace Talea.Talead

structure SeedAsset where
  id : String
  assetClass : AssetClass
  precision : UInt8
  name : String
  deriving DecidableEq

structure SeedAccount where
  book : String
  path : String
  asset : String
  kind : AccountKind
  minBalance : Option Int
  normalSide : Option Direction
  deriving DecidableEq

structure SeedFile where
  assets : List SeedAsset
  accounts : List SeedAccount
  deriving DecidableEq

inductive SeedError
  | duplicateAsset (id : String)
  | duplicateAccount (key : String)
  | reservedBook (book : String)
  | missingAsset (account : String) (asset : String)
  | assetConflict (id : String) (diff : String)
  | blankField (entry : String) (field : String)
  | store (err : StoreError)
  deriving DecidableEq

/-! ## Validation -/

/-- Unicode's `White_Space`. -/
def isWhiteSpace (c : Char) : Bool :=
  let code := c.toNat
  (9 ≤ code && code ≤ 13) || code = 0x20 || code = 0x85 || code = 0xA0 || code = 0x1680 ||
    (0x2000 ≤ code && code ≤ 0x200A) || code = 0x2028 || code = 0x2029 || code = 0x202F ||
    code = 0x205F || code = 0x3000

/-- The text without white space at its ends. -/
def trim (text : String) : List Char :=
  ((text.toList.dropWhile isWhiteSpace).reverse.dropWhile isWhiteSpace).reverse

def isBlank (text : String) : Bool :=
  (trim text).isEmpty

/-- Check an asset against the ids before it. -/
def validateAsset (assetIds : Finset String) (asset : SeedAsset) :
    Except SeedError (Finset String) :=
  if isBlank asset.id then .error (.blankField "asset" "id")
  else if isBlank asset.name then .error (.blankField "asset" "name")
  else if asset.id ∈ assetIds then .error (.duplicateAsset asset.id)
  else .ok (insert asset.id assetIds)

/-- What the validation takes for the key of an account. -/
def SeedAccount.key (account : SeedAccount) : String :=
  account.book ++ ":" ++ account.path

/-- Check an account against the keys before it. -/
def validateAccount (accountKeys : Finset String) (account : SeedAccount) :
    Except SeedError (Finset String) :=
  if isBlank account.book then .error (.blankField "account" "book")
  else if isBlank account.path then .error (.blankField "account" "path")
  else if isBlank account.asset then .error (.blankField "account" "asset")
  else if account.book.toList.head? = some '_' then .error (.reservedBook account.book)
  else if account.key ∈ accountKeys then .error (.duplicateAccount account.key)
  else .ok (insert account.key accountKeys)

/-- File-local checks only. -/
def validate (seed : SeedFile) : Except SeedError Unit := do
  let _ ← seed.assets.foldlM validateAsset ∅
  let _ ← seed.accounts.foldlM validateAccount ∅
  return ()

/-! ## Duplicates -/

/-- The ledger's name for an account of the file. -/
def SeedAccount.accountId (account : SeedAccount) : AccountId :=
  ⟨⟨account.book⟩, account.path⟩

namespace SeedFile

/-- No field is blank, and no book is reserved. -/
structure WellFormed (seed : SeedFile) : Prop where
  asset_id : ∀ asset ∈ seed.assets, isBlank asset.id = false
  asset_name : ∀ asset ∈ seed.assets, isBlank asset.name = false
  account_book : ∀ account ∈ seed.accounts, isBlank account.book = false
  account_path : ∀ account ∈ seed.accounts, isBlank account.path = false
  account_asset : ∀ account ∈ seed.accounts, isBlank account.asset = false
  open_book : ∀ account ∈ seed.accounts, account.accountId.book.isReserved = false

/-- No two assets share an id. -/
def AssetsDistinct (seed : SeedFile) : Prop :=
  (seed.assets.map SeedAsset.id).Nodup

/-- No two accounts have the same book and the same path. -/
def AccountsDistinct (seed : SeedFile) : Prop :=
  (seed.accounts.map SeedAccount.accountId).Nodup

/-- Two entries with this key are for one account. -/
def Repeats (seed : SeedFile) (key : String) : Prop :=
  ¬ ((seed.accounts.filter fun account => account.key = key).map SeedAccount.accountId).Nodup

/-- Duplicates and nothing else is rejected as duplicate. -/
structure RejectsDuplicates (seed : SeedFile) : Prop where
  assets : (∃ id, validate seed = .error (.duplicateAsset id)) ↔ ¬ seed.AssetsDistinct
  accounts : (∃ key, validate seed = .error (.duplicateAccount key)) ↔ ¬ seed.AccountsDistinct
  reported : ∀ key, validate seed = .error (.duplicateAccount key) → seed.Repeats key

/-- The first entry whose key is that of an earlier one has a key under which an
account is listed twice. -/
def FirstClashRepeats (seed : SeedFile) : Prop :=
  ∀ before account after, seed.accounts = before ++ account :: after →
    (before.map SeedAccount.key).Nodup → account.key ∈ before.map SeedAccount.key →
      seed.Repeats account.key

end SeedFile

variable {seed : SeedFile}

theorem SeedAccount.key_of_accountId {left right : SeedAccount}
    (hsame : left.accountId = right.accountId) : left.key = right.key := by
  obtain ⟨hbook, hpath⟩ := AccountId.mk.inj hsame
  rw [SeedAccount.key, Book.mk.inj hbook, hpath]
  rfl

/-- The validation of a well-formed file: the assets come first. -/
theorem validate_cases (hwell : seed.WellFormed) :
    (seed.AssetsDistinct ∧ (seed.accounts.map SeedAccount.key).Nodup ∧
        validate seed = .ok ()) ∨
      (¬ seed.AssetsDistinct ∧ ∃ id, validate seed = .error (.duplicateAsset id)) ∨
      seed.AssetsDistinct ∧ ∃ before account after,
        seed.accounts = before ++ account :: after ∧ (before.map SeedAccount.key).Nodup ∧
          account.key ∈ before.map SeedAccount.key ∧
          validate seed = .error (.duplicateAccount account.key) := by
  have hasset : ∀ seen, ∀ asset ∈ seed.assets, validateAsset seen asset =
      if asset.id ∈ seen then .error (.duplicateAsset asset.id)
      else .ok (insert asset.id seen) := by
    intro seen asset hmem
    rw [validateAsset, hwell.asset_id asset hmem, hwell.asset_name asset hmem]
    rfl
  have haccount : ∀ seen, ∀ account ∈ seed.accounts, validateAccount seen account =
      if account.key ∈ seen then .error (.duplicateAccount account.key)
      else .ok (insert account.key seen) := by
    intro seen account hmem
    have hopen : account.book.toList.head? ≠ some '_' :=
      of_decide_eq_false (hwell.open_book account hmem)
    rw [validateAccount, hwell.account_book account hmem, hwell.account_path account hmem,
      hwell.account_asset account hmem, if_neg hopen]
    rfl
  unfold validate
  rcases foldlM_distinct hasset with ⟨ids, hids, hdistinct⟩ | ⟨done, asset, rest, heq, -, hin, herr⟩
  · rw [hids]
    rcases foldlM_distinct haccount with ⟨keys, hkeys, hnodup⟩ |
      ⟨before, account, after, heq, hnodup, hin, herr⟩
    · refine Or.inl ⟨hdistinct, hnodup, ?_⟩
      change (seed.accounts.foldlM validateAccount ∅ >>= _) = _
      rw [hkeys]
      rfl
    · refine Or.inr (Or.inr ⟨hdistinct, before, account, after, heq, hnodup, hin, ?_⟩)
      change (seed.accounts.foldlM validateAccount ∅ >>= _) = _
      rw [herr]
      rfl
  · refine Or.inr (Or.inl ⟨fun hdistinct => ?_, asset.id, by rw [herr]; rfl⟩)
    rw [SeedFile.AssetsDistinct, heq, List.map_append, List.map_cons] at hdistinct
    exact List.disjoint_of_nodup_append hdistinct hin List.mem_cons_self

theorem accountsDistinct_of_keys (hkeys : (seed.accounts.map SeedAccount.key).Nodup) :
    seed.AccountsDistinct := by
  have hmap : (seed.accounts.map SeedAccount.accountId).map
      (fun id => id.book.name ++ ":" ++ id.path) = seed.accounts.map SeedAccount.key := by
    rw [List.map_map]
    rfl
  exact List.Nodup.of_map _ (hmap ▸ hkeys)

/-- A file has one first clash of keys at most. -/
theorem first_clash_unique {before after before' after' : List SeedAccount}
    {account account' : SeedAccount}
    (heq : before ++ account :: after = before' ++ account' :: after')
    (hnodup : (before.map SeedAccount.key).Nodup)
    (hin : account.key ∈ before.map SeedAccount.key)
    (hnodup' : (before'.map SeedAccount.key).Nodup)
    (hin' : account'.key ∈ before'.map SeedAccount.key) : account = account' := by
  -- what is listed behind a clash has a part with two equal keys before it
  have hclash : ∀ {first more rest : List SeedAccount} {entry : SeedAccount},
      entry.key ∈ first.map SeedAccount.key → more ≠ [] →
        entry :: rest = more ++ account' :: after' ∨ entry :: rest = more ++ account :: after →
        ¬ ((first ++ more).map SeedAccount.key).Nodup := by
    intro first more rest entry hentry hne hsame hboth
    obtain ⟨head, tail, rfl⟩ := List.exists_cons_of_ne_nil hne
    have hhead : entry = head :=
      hsame.elim (fun h => (List.cons.inj h).1) fun h => (List.cons.inj h).1
    rw [List.map_append] at hboth
    exact List.disjoint_of_nodup_append hboth hentry (by simp [hhead])
  rcases List.append_eq_append_iff.1 heq with ⟨more, rfl, hrest⟩ | ⟨more, rfl, hrest⟩
  · by_cases hne : more = []
    · subst hne
      exact (List.cons.inj hrest).1
    · exact absurd hnodup' (hclash hin hne (Or.inl hrest))
  · by_cases hne : more = []
    · subst hne
      exact (List.cons.inj hrest).1.symm
    · exact absurd hnodup (hclash hin' hne (Or.inr hrest))

/-- Exactly the duplicates of a well-formed file are rejected when it does not
repeat both an asset and an account, and its first clash of keys, if it gets
that far, is one of a repeated account. -/
theorem validate_exact_iff (hwell : seed.WellFormed) :
    seed.RejectsDuplicates ↔
      (seed.AssetsDistinct ∨ seed.AccountsDistinct) ∧
        (seed.AssetsDistinct → seed.FirstClashRepeats) := by
  rcases validate_cases hwell with ⟨hassets, hkeys, hok⟩ | ⟨hassets, id, herr⟩ |
    ⟨hassets, before, account, after, heq, hnodup, hin, herr⟩
  · -- nothing is repeated, in the file or in its keys
    have hdistinct := accountsDistinct_of_keys hkeys
    have hclash : seed.FirstClashRepeats := by
      intro before account after heq _ hin
      rw [heq, List.map_append] at hkeys
      exact absurd List.mem_cons_self (List.disjoint_of_nodup_append hkeys hin)
    refine iff_of_true ⟨?_, ?_, ?_⟩ ⟨Or.inl hassets, fun _ => hclash⟩
    · exact iff_of_false (by simp [hok]) (not_not.2 hassets)
    · exact iff_of_false (by simp [hok]) (not_not.2 hdistinct)
    · intro key hkey
      rw [hok] at hkey
      cases hkey
  · have hiff : seed.RejectsDuplicates ↔ seed.AccountsDistinct := by
      constructor
      · intro hrejects
        by_contra hnot
        obtain ⟨key, hkey⟩ := hrejects.accounts.2 hnot
        rw [herr] at hkey
        cases hkey
      · intro hdistinct
        refine ⟨iff_of_true ⟨id, herr⟩ hassets, ?_, fun key hkey => ?_⟩
        · exact iff_of_false (by simp [herr]) (not_not.2 hdistinct)
        · rw [herr] at hkey
          cases hkey
    rw [hiff]
    exact ⟨fun hdistinct => ⟨Or.inr hdistinct, fun hall => absurd hall hassets⟩,
      fun ⟨heither, _⟩ => heither.resolve_left hassets⟩
  · have hiff : seed.RejectsDuplicates ↔ seed.Repeats account.key := by
      constructor
      · exact fun hrejects => hrejects.reported _ herr
      · intro hrepeats
        have hdistinct : ¬ seed.AccountsDistinct := fun hall =>
          hrepeats (hall.sublist (List.filter_sublist.map _))
        refine ⟨iff_of_false (by simp [herr]) (not_not.2 hassets),
          iff_of_true ⟨_, herr⟩ hdistinct, fun key hkey => ?_⟩
        rw [herr] at hkey
        cases hkey
        exact hrepeats
    rw [hiff]
    constructor
    · intro hrepeats
      refine ⟨Or.inl hassets, fun _ before' account' after' heq' hnodup' hin' => ?_⟩
      rwa [← first_clash_unique (heq.symm.trans heq') hnodup hin hnodup' hin']
    · exact fun ⟨_, hclash⟩ => hclash hassets before account after heq hnodup hin

namespace ColonFile

def entry (book path : String) : SeedAccount :=
  ⟨book, path, "USD", .asset, none, none⟩

/-- Two accounts whose names run into one. -/
def clash : SeedFile :=
  ⟨[⟨"USD", .fiat, 2, "US Dollar"⟩], [entry "a:b" "c", entry "a" "b:c"]⟩

/-- One account, listed twice. -/
def twice : SeedFile :=
  ⟨[⟨"USD", .fiat, 2, "US Dollar"⟩], [entry "a" "b", entry "a" "b"]⟩

theorem wellFormed : clash.WellFormed := by
  constructor <;> decide +kernel

theorem wellFormed_twice : twice.WellFormed := by
  constructor <;> decide +kernel

end ColonFile

theorem validate_exact_iff_twice :
    ColonFile.twice.RejectsDuplicates ↔
      (ColonFile.twice.AssetsDistinct ∨ ColonFile.twice.AccountsDistinct) ∧
        (ColonFile.twice.AssetsDistinct → ColonFile.twice.FirstClashRepeats) :=
  validate_exact_iff ColonFile.wellFormed_twice

/-- Two different accounts are reported as duplicates. -/
theorem validate_confuses_colons :
    ColonFile.clash.WellFormed ∧ ColonFile.clash.AccountsDistinct ∧
      validate ColonFile.clash = .error (.duplicateAccount "a:b:c") ∧
      ¬ ColonFile.clash.RejectsDuplicates := by
  have hdistinct : ColonFile.clash.AccountsDistinct := by
    unfold SeedFile.AccountsDistinct
    decide +kernel
  have herr : validate ColonFile.clash = .error (.duplicateAccount "a:b:c") := by
    decide +kernel
  exact ⟨ColonFile.wellFormed, hdistinct, herr,
    fun hrejects => hrejects.accounts.1 ⟨_, herr⟩ hdistinct⟩

end Talea.Talead
