import Talea.Core.Store
import Talea.Service.Post

/-!
# Drafts of assets and accounts

The service turns a draft into a definition, or says which field is wrong.  A
definition that passes comes from one draft only, the one that spells it out.
-/

namespace Talea

/-- The codes of the kinds, in the database and in drafts. -/
def AccountKind.asStr : AccountKind → String
  | .asset => "asset"
  | .liability => "liability"
  | .income => "income"
  | .expense => "expense"
  | .equity => "equity"
  | .clearing => "clearing"

def AccountKind.fromDb (text : String) : Option AccountKind :=
  match text with
  | "asset" => some .asset
  | "liability" => some .liability
  | "income" => some .income
  | "expense" => some .expense
  | "equity" => some .equity
  | "clearing" => some .clearing
  | _ => none

theorem AccountKind.fromDb_eq_some {text : String} {kind : AccountKind} :
    fromDb text = some kind ↔ text = kind.asStr := by
  constructor
  · intro hkind
    unfold fromDb at hkind
    split at hkind <;> cases hkind <;> rfl
  · rintro rfl
    cases kind <;> rfl

namespace Service

structure AssetDraft where
  id : String
  assetClass : String
  network : Option String
  nativeId : Option String
  precision : UInt8
  name : String
  deriving DecidableEq

structure AccountDraft where
  book : String
  path : String
  asset : String
  kind : String
  normalSide : Option Direction
  minBalance : Option ℤ
  deriving DecidableEq

/-- The class of a draft; only crypto assets have a network. -/
def parseClass (draft : AssetDraft) : Except ApiError AssetClass :=
  if draft.assetClass = "fiat" then
    if draft.network.isSome || draft.nativeId.isSome then
      .error (invalid "network" "fiat assets have no network or native_id")
    else .ok .fiat
  else if draft.assetClass = "crypto" then
    match draft.network with
    | none => .error (invalid "network" "crypto assets require a network")
    | some network => .ok (.crypto ⟨network⟩ draft.nativeId)
  else
    .error (invalid "class"
      ("unknown asset class '" ++ draft.assetClass ++ "' (expected 'fiat' or 'crypto')"))

def parseAssetDraft (draft : AssetDraft) : Except ApiError AssetDef := do
  if draft.id = "" then .error (invalid "id" "must not be empty")
  else
    let assetClass ← parseClass draft
    .ok ⟨⟨draft.id⟩, assetClass, draft.precision, draft.name⟩

/-- The definition and the configuration of a draft; the configuration is the
draft's own, whatever the kind. -/
def parseAccountDraft (draft : AccountDraft) : Except ApiError (AccountDef × AccountCfg) := do
  let book ← parseBook draft.book
  if draft.path = "" then .error (invalid "path" "must not be empty")
  else
    match AccountKind.fromDb draft.kind with
    | none => .error (invalid "kind" ("unknown account kind '" ++ draft.kind ++ "'"))
    | some kind =>
        .ok (⟨⟨book, draft.path⟩, ⟨draft.asset⟩, kind⟩, ⟨draft.normalSide, draft.minBalance⟩)

/-! ## One draft for each definition -/

/-- The draft that spells out an asset. -/
def draftOfAsset (asset : AssetDef) : AssetDraft where
  id := asset.id.id
  assetClass :=
    match asset.assetClass with
    | .fiat => "fiat"
    | .crypto _ _ => "crypto"
  network :=
    match asset.assetClass with
    | .fiat => none
    | .crypto network _ => some network.name
  nativeId :=
    match asset.assetClass with
    | .fiat => none
    | .crypto _ nativeId => nativeId
  precision := asset.precision
  name := asset.name

def draftOfAccount (account : AccountDef) (cfg : AccountCfg) : AccountDraft where
  book := account.id.book.name
  path := account.id.path
  asset := account.asset.id
  kind := account.kind.asStr
  normalSide := cfg.normalSide
  minBalance := cfg.minBalance

theorem parseClass_eq_ok {draft : AssetDraft} {assetClass : AssetClass} :
    parseClass draft = .ok assetClass ↔
      draft.assetClass = "fiat" ∧ draft.network = none ∧ draft.nativeId = none ∧
          assetClass = .fiat ∨
        draft.assetClass = "crypto" ∧ ∃ network, draft.network = some network ∧
          assetClass = .crypto ⟨network⟩ draft.nativeId := by
  unfold parseClass
  by_cases hfiat : draft.assetClass = "fiat"
  · rw [if_pos hfiat]
    cases draft.network <;> cases draft.nativeId <;> simp [hfiat, eq_comm]
  · rw [if_neg hfiat]
    by_cases hcrypto : draft.assetClass = "crypto"
    · rw [if_pos hcrypto]
      cases draft.network <;> simp [hcrypto, eq_comm]
    · simp [hfiat, hcrypto]

/-- The drafts that define an asset. -/
theorem parseAssetDraft_eq_ok {draft : AssetDraft} {asset : AssetDef} :
    parseAssetDraft draft = .ok asset ↔ asset.id.id ≠ "" ∧ draft = draftOfAsset asset := by
  obtain ⟨id, text, network, nativeId, precision, name⟩ := draft
  obtain ⟨⟨assetId⟩, assetClass, assetPrecision, assetName⟩ := asset
  unfold parseAssetDraft
  dsimp only
  by_cases hid : id = ""
  · rw [if_pos hid]
    constructor
    · intro hparse
      cases hparse
    · rintro ⟨hasset, hdraft⟩
      exact absurd ((AssetDraft.mk.inj hdraft).1.symm.trans hid) hasset
  rw [if_neg hid, Except.bind_eq_ok]
  constructor
  · rintro ⟨parsed, hparsed, hresult⟩
    cases hresult
    rcases parseClass_eq_ok.1 hparsed with ⟨htext, hnetwork, hnative, rfl⟩ |
      ⟨htext, network, hnetwork, rfl⟩
    · cases htext
      cases hnetwork
      cases hnative
      exact ⟨hid, rfl⟩
    · cases htext
      cases hnetwork
      exact ⟨hid, rfl⟩
  · rintro ⟨-, hdraft⟩
    cases hdraft
    refine ⟨assetClass, parseClass_eq_ok.2 ?_, rfl⟩
    cases assetClass with
    | fiat => exact Or.inl ⟨rfl, rfl, rfl, rfl⟩
    | crypto network nativeId => exact Or.inr ⟨rfl, network.name, rfl, rfl⟩

/-- The drafts that define an account. -/
theorem parseAccountDraft_eq_ok {draft : AccountDraft} {account : AccountDef} {cfg : AccountCfg} :
    parseAccountDraft draft = .ok (account, cfg) ↔
      account.id.book.name ≠ "" ∧ account.id.book.isReserved = false ∧ account.id.path ≠ "" ∧
        draft = draftOfAccount account cfg := by
  obtain ⟨book, path, asset, kind, normalSide, minBalance⟩ := draft
  obtain ⟨⟨⟨bookName⟩, accountPath⟩, ⟨assetId⟩, accountKind⟩ := account
  obtain ⟨cfgSide, cfgMin⟩ := cfg
  unfold parseAccountDraft
  rw [Except.bind_eq_ok]
  constructor
  · rintro ⟨parsed, hparsed, hresult⟩
    obtain ⟨hname, hreserved, rfl⟩ := parseBook_eq_ok.1 hparsed
    dsimp only at hresult
    split_ifs at hresult with hpath
    cases hkind : AccountKind.fromDb kind with
    | none =>
        rw [hkind] at hresult
        cases hresult
    | some found =>
        rw [hkind] at hresult
        cases hresult
        exact ⟨hname, hreserved, hpath, by
          rw [draftOfAccount, AccountKind.fromDb_eq_some.1 hkind]⟩
  · rintro ⟨hname, hreserved, hpath, hdraft⟩
    cases hdraft
    refine ⟨⟨bookName⟩, parseBook_eq_ok.2 ⟨hname, hreserved, rfl⟩, ?_⟩
    dsimp only
    rw [if_neg hpath, AccountKind.fromDb_eq_some.2 rfl]

end Service

end Talea
