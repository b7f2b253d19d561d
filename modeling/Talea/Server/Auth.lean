import Talea.Lib.ExceptFold
import Talea.Service.Post

/-!
# Bearer tokens

A tokens file gives each secret a scope: the books it reaches, and whether it
may write.  A request shows a secret in its header and gets the scope of the
entry with just that secret; no other header opens anything.  The reader of
TOML is a parameter.
-/

namespace Talea.Server

open Service (ApiError)

/-- Which books a token reaches. -/
inductive BookSet
  | all
  | named (books : Finset String)
  deriving DecidableEq

inductive Access
  | readOnly
  | readWrite
  deriving DecidableEq

/-- What a token is allowed to do; the name is that of its entry. -/
structure TokenScope where
  name : String
  books : BookSet
  access : Access
  deriving DecidableEq

namespace TokenScope

def allowsRead (scope : TokenScope) (book : String) : Bool :=
  match scope.books with
  | .all => true
  | .named books => decide (book ∈ books)

def allowsWrite (scope : TokenScope) (book : String) : Bool :=
  decide (scope.access = .readWrite) && scope.allowsRead book

/-- The registry of assets is global: only tokens that write to all books. -/
def allowsRegistry (scope : TokenScope) : Bool :=
  decide (scope.access = .readWrite) && decide (scope.books = .all)

def allAccess (name : String) : TokenScope :=
  ⟨name, .all, .readWrite⟩

end TokenScope

/-- The secrets and their scopes; without any, everything is open. -/
structure AuthConfig where
  entries : List (String × TokenScope)

namespace AuthConfig

def opened : AuthConfig := ⟨[]⟩

/-- The one token of old: none leaves everything open. -/
def single (token : Option String) : AuthConfig :=
  ⟨(token.map fun token => (token, TokenScope.allAccess "legacy")).toList⟩

end AuthConfig

/-! ## The header -/

/-- The text before the first separator, and the text behind it. -/
def splitOnce (separator : Char) : List Char → Option (List Char × List Char)
  | [] => none
  | c :: rest =>
      if c = separator then some ([], rest)
      else (splitOnce separator rest).map fun (front, back) => (c :: front, back)

/-- What a header can hold for `to_str` to give it. -/
def visibleAscii (c : Char) : Bool :=
  (32 ≤ c.toNat && c.toNat < 127) || c = '\t'

def toStr (header : String) : Option String :=
  if header.toList.all visibleAscii then some header else none

/-- The token behind the scheme, in any case, and one or more spaces. -/
def parseBearer (header : String) : Option String := do
  let (scheme, rest) ← splitOnce ' ' header.toList
  if scheme.map Char.toLower ≠ ['b', 'e', 'a', 'r', 'e', 'r'] then none
  else
    let token := rest.dropWhile fun c => c = ' '
    if token = [] then none else some (String.ofList token)

/-- The scope of a request, from its header. -/
def requireBearer (auth : AuthConfig) (authorization : Option String) :
    Except ApiError TokenScope :=
  if auth.entries = [] then .ok (.allAccess "open")
  else
    match (authorization.bind toStr).bind parseBearer with
    | none => .error .unauthorized
    | some token =>
        match auth.entries.find? fun entry => entry.1 = token with
        | some (_, scope) => .ok scope
        | none => .error .unauthorized

/-! ## The tokens file -/

structure TokenEntry where
  token : String
  books : List String
  access : String

/-- The error text of an entry. -/
def entryError (name message : String) : String :=
  s!"token entry '{name}': " ++ message

def parseBooks (name : String) (books : List String) : Except String BookSet :=
  if books = [] then .error (entryError name "books must not be empty")
  else if books = ["*"] then .ok .all
  else if "*" ∈ books then .error (entryError name "'*' cannot be mixed with named books")
  else .ok (.named books.toFinset)

def parseAccess (name access : String) : Except String Access :=
  if access = "ro" then .ok .readOnly
  else if access = "rw" then .ok .readWrite
  else .error (entryError name s!"access must be \"ro\" or \"rw\", got \"{access}\"")

def parseEntry (entry : String × TokenEntry) : Except String (String × TokenScope) := do
  if entry.2.token = "" then .error (entryError entry.1 "token must not be empty")
  else
    let books ← parseBooks entry.1 entry.2.books
    let access ← parseAccess entry.1 entry.2.access
    .ok (entry.2.token, ⟨entry.1, books, access⟩)

/-- The first entry whose secret stands in an earlier one. -/
def firstRepeated : List String → List (String × TokenScope) → Option TokenScope
  | _, [] => none
  | seen, (secret, scope) :: entries =>
      if secret ∈ seen then some scope else firstRepeated (seen ++ [secret]) entries

def checkDistinct (entries : List (String × TokenScope)) :
    Except String (List (String × TokenScope)) :=
  match firstRepeated [] entries with
  | some scope =>
      .error (entryError scope.name "duplicate token value (secrets must be unique)")
  | none => .ok entries

/-- The entries of a file's table. -/
def parseFile (file : List (String × TokenEntry)) : Except String (List (String × TokenScope)) := do
  let entries ← file.mapM parseEntry
  checkDistinct entries

/-- The entries of a tokens file.  The table comes ordered by name, and `fromToml`
gives the text of the diagnostic where there is none. -/
def parseTokens (fromToml : String → Except String (List (String × TokenEntry))) (text : String) :
    Except String (List (String × TokenScope)) :=
  match fromToml text with
  | .error message => .error ("tokens file is not valid TOML: " ++ message)
  | .ok file => parseFile file

/-! ## What a header shows -/

theorem splitOnce_eq_some {separator : Char} {text front back : List Char} :
    splitOnce separator text = some (front, back) ↔
      text = front ++ separator :: back ∧ separator ∉ front := by
  induction text generalizing front with
  | nil =>
      constructor
      · intro hsplit
        cases hsplit
      · rintro ⟨happend, -⟩
        cases front <;> cases happend
  | cons c rest ih =>
      rw [splitOnce]
      split_ifs with hc
      · constructor
        · intro hsplit
          cases hsplit
          exact ⟨by rw [hc]; rfl, List.not_mem_nil⟩
        · rintro ⟨happend, hfresh⟩
          cases front with
          | nil =>
              cases happend
              rfl
          | cons head front =>
              cases happend
              exact absurd List.mem_cons_self (hc ▸ hfresh)
      · rw [Option.map_eq_some_iff]
        constructor
        · rintro ⟨⟨front', back'⟩, hsplit, heq⟩
          cases heq
          obtain ⟨rfl, hfresh⟩ := ih.1 hsplit
          refine ⟨rfl, ?_⟩
          rw [List.mem_cons]
          rintro (heq | hmem)
          · exact hc heq.symm
          · exact hfresh hmem
        · rintro ⟨happend, hfresh⟩
          cases front with
          | nil =>
              cases happend
              exact absurd rfl hc
          | cons head front =>
              cases happend
              exact ⟨(front, back), ih.2 ⟨rfl, fun hmem => hfresh (List.mem_cons_of_mem _ hmem)⟩,
                rfl⟩

/-- A header in visible ASCII that has the scheme, one or more spaces, and then
the token. -/
structure Shows (header token : String) : Prop where
  visible : header.toList.all visibleAscii = true
  nonempty : token ≠ ""
  bare : token.toList.head? ≠ some ' '
  form : ∃ (scheme : List Char) (spaces : ℕ), scheme.map Char.toLower = ['b', 'e', 'a', 'r', 'e', 'r'] ∧
    header.toList = scheme ++ ' ' :: (List.replicate spaces ' ' ++ token.toList)

theorem not_mem_scheme {scheme : List Char}
    (hscheme : scheme.map Char.toLower = ['b', 'e', 'a', 'r', 'e', 'r']) : ' ' ∉ scheme := by
  intro hmem
  have hlower : Char.toLower ' ' ∈ scheme.map Char.toLower := List.mem_map_of_mem hmem
  rw [hscheme] at hlower
  exact absurd hlower (by decide)

theorem dropWhile_space_eq {rest token : List Char} (hnonempty : token ≠ []) :
    rest.dropWhile (fun c => c = ' ') = token ↔
      token.head? ≠ some ' ' ∧ ∃ spaces, rest = List.replicate spaces ' ' ++ token := by
  induction rest with
  | nil =>
      constructor
      · intro hdrop
        exact absurd hdrop.symm hnonempty
      · rintro ⟨-, spaces, hnil⟩
        exact absurd (List.append_eq_nil_iff.1 hnil.symm).2 hnonempty
  | cons c rest ih =>
      by_cases hc : c = ' '
      · rw [List.dropWhile_cons_of_pos (by simpa using hc), ih, hc]
        refine and_congr_right fun hbare => ⟨?_, ?_⟩
        · rintro ⟨spaces, rfl⟩
          exact ⟨spaces + 1, rfl⟩
        · rintro ⟨spaces, happend⟩
          cases spaces with
          | zero =>
              rw [List.replicate_zero, List.nil_append] at happend
              rw [← happend] at hbare
              exact absurd rfl hbare
          | succ spaces => exact ⟨spaces, (List.cons.inj happend).2⟩
      · rw [List.dropWhile_cons_of_neg (by simpa using hc)]
        constructor
        · rintro rfl
          exact ⟨fun hhead => hc (Option.some.inj hhead), 0, rfl⟩
        · rintro ⟨-, spaces, happend⟩
          cases spaces with
          | zero => exact happend
          | succ spaces => exact absurd (List.cons.inj happend).1 hc

theorem toStr_bind_parseBearer {header token : String} :
    (toStr header).bind parseBearer = some token ↔ Shows header token := by
  have htoken : token ≠ "" ↔ token.toList ≠ [] := by
    rw [Ne, Ne, String.toList_eq_nil_iff]
  unfold toStr
  split_ifs with hvisible
  · rw [Option.bind_some, parseBearer]
    constructor
    · intro hparse
      obtain ⟨⟨scheme, rest⟩, hsplit, hrest⟩ := Option.bind_eq_some_iff.1 hparse
      dsimp only at hrest
      split_ifs at hrest with hscheme hempty
      obtain ⟨happend, -⟩ := splitOnce_eq_some.1 hsplit
      have hlist : rest.dropWhile (fun c => c = ' ') = token.toList := by
        rw [← Option.some.inj hrest, String.toList_ofList]
      obtain ⟨hbare, spaces, hspaces⟩ := (dropWhile_space_eq (hlist ▸ hempty)).1 hlist
      exact ⟨hvisible, htoken.2 (hlist ▸ hempty), hbare, scheme, spaces, not_not.1 hscheme,
        by rw [happend, hspaces]⟩
    · rintro ⟨-, hnonempty, hbare, scheme, spaces, hscheme, hform⟩
      have hlist : (List.replicate spaces ' ' ++ token.toList).dropWhile (fun c => c = ' ') =
          token.toList :=
        (dropWhile_space_eq (htoken.1 hnonempty)).2 ⟨hbare, spaces, rfl⟩
      have hsplit := splitOnce_eq_some.2 ⟨hform, not_mem_scheme hscheme⟩
      refine Option.bind_eq_some_iff.2 ⟨_, hsplit, ?_⟩
      dsimp only
      rw [if_neg (not_not.2 hscheme), hlist, if_neg (htoken.1 hnonempty), String.ofList_toList]
  · rw [Option.bind_none]
    constructor
    · intro hnone
      cases hnone
    · intro hshows
      exact absurd hshows.visible hvisible

/-- The tokens that some header shows. -/
theorem exists_shows {token : String} :
    (∃ header, Shows header token) ↔
      token ≠ "" ∧ token.toList.head? ≠ some ' ' ∧ token.toList.all visibleAscii = true := by
  constructor
  · rintro ⟨header, hvisible, hnonempty, hbare, scheme, spaces, -, hform⟩
    refine ⟨hnonempty, hbare, ?_⟩
    rw [hform, List.all_append, List.all_cons, List.all_append] at hvisible
    simp only [Bool.and_eq_true] at hvisible
    exact hvisible.2.2.2
  · rintro ⟨hnonempty, hbare, hvisible⟩
    refine ⟨String.ofList ("Bearer ".toList ++ token.toList), ?_, hnonempty, hbare,
      ['B', 'e', 'a', 'r', 'e', 'r'], 0, by decide, by rw [String.toList_ofList]; rfl⟩
    rw [String.toList_ofList, List.all_append, hvisible]
    decide

/-! ## What the file gives -/

/-- What the text of an entry lets its scope do. -/
structure Grants (entry : String × TokenEntry) (scope : TokenScope) : Prop where
  name : scope.name = entry.1
  reads : ∀ book, scope.allowsRead book = true ↔ "*" ∈ entry.2.books ∨ book ∈ entry.2.books
  writes : ∀ book, scope.allowsWrite book = true ↔
    entry.2.access = "rw" ∧ ("*" ∈ entry.2.books ∨ book ∈ entry.2.books)
  registers : scope.allowsRegistry = true ↔ entry.2.access = "rw" ∧ "*" ∈ entry.2.books

theorem parseBooks_eq_ok {name : String} {list : List String} {books : BookSet} :
    parseBooks name list = .ok books ↔
      list = ["*"] ∧ books = .all ∨ list ≠ [] ∧ "*" ∉ list ∧ books = .named list.toFinset := by
  unfold parseBooks
  split_ifs with hnil hstar hmem
  · simp [hnil]
  · simp [hstar, eq_comm]
  · simp [hstar, hmem]
  · simp [hstar, hmem, hnil, eq_comm]

theorem parseAccess_eq_ok {name text : String} {access : Access} :
    parseAccess name text = .ok access ↔
      text = "ro" ∧ access = .readOnly ∨ text = "rw" ∧ access = .readWrite := by
  unfold parseAccess
  split_ifs with hro hrw
  · simp [hro, eq_comm]
  · simp [hrw, eq_comm]
  · simp [hro, hrw]

theorem parseEntry_eq_ok {entry : String × TokenEntry} {secret : String} {scope : TokenScope} :
    parseEntry entry = .ok (secret, scope) ↔
      entry.2.token ≠ "" ∧ secret = entry.2.token ∧ scope.name = entry.1 ∧
        parseBooks entry.1 entry.2.books = .ok scope.books ∧
        parseAccess entry.1 entry.2.access = .ok scope.access := by
  unfold parseEntry
  split_ifs with hempty
  · simp [hempty]
  · rw [Except.bind_eq_ok]
    constructor
    · rintro ⟨books, hbooks, hrest⟩
      obtain ⟨access, haccess, hresult⟩ := Except.bind_eq_ok.1 hrest
      cases hresult
      exact ⟨hempty, rfl, rfl, hbooks, haccess⟩
    · rintro ⟨-, rfl, hname, hbooks, haccess⟩
      refine ⟨scope.books, hbooks, Except.bind_eq_ok.2 ⟨scope.access, haccess, ?_⟩⟩
      rw [← hname]

theorem grants_of_parseEntry {entry : String × TokenEntry} {secret : String} {scope : TokenScope}
    (hparse : parseEntry entry = .ok (secret, scope)) : Grants entry scope := by
  obtain ⟨-, -, hname, hbooks, haccess⟩ := parseEntry_eq_ok.1 hparse
  have hreads : ∀ book, scope.allowsRead book = true ↔
      "*" ∈ entry.2.books ∨ book ∈ entry.2.books := by
    intro book
    unfold TokenScope.allowsRead
    rcases parseBooks_eq_ok.1 hbooks with ⟨hstar, hall⟩ | ⟨-, hstar, hnamed⟩
    · simp [hall, hstar]
    · simp [hnamed, hstar]
  have hwrites : scope.access = .readWrite ↔ entry.2.access = "rw" := by
    rcases parseAccess_eq_ok.1 haccess with ⟨htext, hscope⟩ | ⟨htext, hscope⟩ <;>
      simp [htext, hscope]
  have hall : scope.books = .all ↔ "*" ∈ entry.2.books := by
    rcases parseBooks_eq_ok.1 hbooks with ⟨hstar, hall⟩ | ⟨-, hstar, hnamed⟩
    · simp [hall, hstar]
    · simp [hnamed, hstar]
  refine ⟨hname, hreads, fun book => ?_, ?_⟩
  · unfold TokenScope.allowsWrite
    rw [Bool.and_eq_true, decide_eq_true_iff, hwrites, hreads]
  · unfold TokenScope.allowsRegistry
    rw [Bool.and_eq_true, decide_eq_true_iff, decide_eq_true_iff, hwrites, hall]

theorem firstRepeated_eq_none {seen : List String} {entries : List (String × TokenScope)} :
    firstRepeated seen entries = none ↔
      (entries.map Prod.fst).Nodup ∧ ∀ secret ∈ entries.map Prod.fst, secret ∉ seen := by
  induction entries generalizing seen with
  | nil => simp [firstRepeated]
  | cons entry entries ih =>
      obtain ⟨secret, scope⟩ := entry
      rw [firstRepeated, List.map_cons, List.nodup_cons, List.forall_mem_cons]
      split_ifs with hseen
      · simp [hseen]
      · rw [ih]
        simp only [List.mem_append, List.mem_singleton, not_or]
        constructor
        · rintro ⟨hnodup, hfresh⟩
          exact ⟨⟨fun hmem => (hfresh secret hmem).2 rfl, hnodup⟩, hseen, fun other hmem =>
            (hfresh other hmem).1⟩
        · rintro ⟨⟨hnew, hnodup⟩, -, hfresh⟩
          exact ⟨hnodup, fun other hmem => ⟨hfresh other hmem, fun heq => hnew (heq ▸ hmem)⟩⟩

theorem parseFile_eq_ok {file : List (String × TokenEntry)} {entries : List (String × TokenScope)} :
    parseFile file = .ok entries ↔
      List.Forall₂ (fun entry result => parseEntry entry = .ok result) file entries ∧
        (entries.map Prod.fst).Nodup := by
  have hdistinct : ∀ parsed : List (String × TokenScope), checkDistinct parsed = .ok entries ↔
      parsed = entries ∧ (entries.map Prod.fst).Nodup := by
    intro parsed
    unfold checkDistinct
    cases hrepeated : firstRepeated [] parsed with
    | some scope =>
        simp only [reduceCtorEq, false_iff]
        rintro ⟨rfl, hnodup⟩
        rw [firstRepeated_eq_none.2 ⟨hnodup, fun _ _ => List.not_mem_nil⟩] at hrepeated
        cases hrepeated
    | none =>
        rw [Except.ok.injEq]
        exact ⟨fun heq => ⟨heq, heq ▸ (firstRepeated_eq_none.1 hrepeated).1⟩, And.left⟩
  unfold parseFile
  rw [Except.bind_eq_ok, ← Except.mapM_eq_ok]
  constructor
  · rintro ⟨parsed, hparsed, hresult⟩
    obtain ⟨rfl, hnodup⟩ := (hdistinct parsed).1 hresult
    exact ⟨hparsed, hnodup⟩
  · rintro ⟨hparsed, hnodup⟩
    exact ⟨entries, hparsed, (hdistinct entries).2 ⟨rfl, hnodup⟩⟩

/-- An entry stands in a configuration of distinct secrets exactly when its
secret finds it. -/
theorem find?_eq_some_iff {entries : List (String × TokenScope)}
    (hnodup : (entries.map Prod.fst).Nodup) {secret : String} {found : String × TokenScope} :
    entries.find? (fun entry => entry.1 = secret) = some found ↔
      found ∈ entries ∧ found.1 = secret := by
  constructor
  · intro hfind
    have hsecret := List.find?_some hfind
    exact ⟨List.mem_of_find?_eq_some hfind, by simpa using hsecret⟩
  · rintro ⟨hmem, rfl⟩
    have hsome : (entries.find? fun entry => entry.1 = found.1).isSome = true :=
      List.find?_isSome.2 ⟨found, hmem, by simp⟩
    obtain ⟨other, hother⟩ := Option.isSome_iff_exists.1 hsome
    have hsecret : other.1 = found.1 := by simpa using List.find?_some hother
    rw [hother, List.inj_on_of_nodup_map hnodup (List.mem_of_find?_eq_some hother) hmem hsecret]

theorem requireBearer_eq_ok {entries : List (String × TokenScope)} (hsome : entries ≠ [])
    (hnodup : (entries.map Prod.fst).Nodup) {header : Option String} {scope : TokenScope} :
    requireBearer ⟨entries⟩ header = .ok scope ↔
      ∃ text secret, header = some text ∧ Shows text secret ∧ (secret, scope) ∈ entries := by
  have hshows : ∀ secret, (header.bind toStr).bind parseBearer = some secret ↔
      ∃ text, header = some text ∧ Shows text secret := by
    intro secret
    cases header with
    | none => simp
    | some text => simp [toStr_bind_parseBearer]
  unfold requireBearer
  rw [if_neg hsome]
  constructor
  · intro hok
    split at hok
    · cases hok
    · next secret htoken =>
        split at hok
        · next found scope' hfind =>
            cases hok
            obtain ⟨hmem, hsecret⟩ := (find?_eq_some_iff hnodup).1 hfind
            obtain ⟨text, htext, hshow⟩ := (hshows secret).1 htoken
            cases hsecret
            exact ⟨text, found, htext, hshow, hmem⟩
        · cases hok
  · rintro ⟨text, secret, htext, hshow, hmem⟩
    have hfind := (find?_eq_some_iff hnodup).2 ⟨hmem, rfl⟩
    rw [(hshows secret).2 ⟨text, htext, hshow⟩]
    dsimp only at hfind ⊢
    rw [hfind]

theorem mem_of_parseFile {file : List (String × TokenEntry)} {entries : List (String × TokenScope)}
    (hall : List.Forall₂ (fun entry result => parseEntry entry = .ok result) file entries)
    {result : String × TokenScope} :
    result ∈ entries ↔ ∃ entry ∈ file, parseEntry entry = .ok result := by
  induction hall with
  | nil => simp
  | cons hentry _ ih =>
      rw [List.mem_cons, ih]
      constructor
      · rintro (rfl | ⟨entry, hmem, hparse⟩)
        · exact ⟨_, List.mem_cons_self, hentry⟩
        · exact ⟨entry, List.mem_cons_of_mem _ hmem, hparse⟩
      · rintro ⟨entry, hmem, hparse⟩
        rcases List.mem_cons.1 hmem with rfl | hmem
        · rw [hentry] at hparse
          exact Or.inl (Except.ok.inj hparse).symm
        · exact Or.inr ⟨entry, hmem, hparse⟩

theorem secrets_of_parseFile {file : List (String × TokenEntry)}
    {entries : List (String × TokenScope)}
    (hall : List.Forall₂ (fun entry result => parseEntry entry = .ok result) file entries) :
    entries.map Prod.fst = file.map fun entry => entry.2.token := by
  induction hall with
  | nil => rfl
  | cons hentry _ ih => rw [List.map_cons, List.map_cons, ih, (parseEntry_eq_ok.1 hentry).2.1]

theorem exists_of_parseFile {file : List (String × TokenEntry)}
    {entries : List (String × TokenScope)}
    (hall : List.Forall₂ (fun entry result => parseEntry entry = .ok result) file entries)
    {entry : String × TokenEntry} (hmem : entry ∈ file) :
    ∃ scope, parseEntry entry = .ok (entry.2.token, scope) := by
  induction hall with
  | nil => cases hmem
  | cons hentry _ ih =>
      rcases List.mem_cons.1 hmem with rfl | hmem
      · obtain ⟨-, hsecret, -⟩ := parseEntry_eq_ok.1 hentry
        exact ⟨_, by rw [← hsecret]; exact hentry⟩
      · exact ih hmem

/-- With a tokens file of at least one entry, a request gets the scope of an
entry exactly by showing its secret, which is that entry's alone; any other
request is unauthorized.  The secrets that cannot be shown are those that start
with a space or leave visible ASCII. -/
theorem tokens_file_opens (fromToml : String → Except String (List (String × TokenEntry)))
    (text : String) (entries : List (String × TokenScope))
    (hparse : parseTokens fromToml text = .ok entries) (hsome : entries ≠ []) :
    ∃ file, fromToml text = .ok file ∧ (file.map fun entry => entry.2.token).Nodup ∧
      (∀ header scope, requireBearer ⟨entries⟩ header = .ok scope ↔
        ∃ entry ∈ file, parseEntry entry = .ok (entry.2.token, scope) ∧
          ∃ shown, header = some shown ∧ Shows shown entry.2.token) ∧
      (∀ header error, requireBearer ⟨entries⟩ header = .error error → error = .unauthorized) ∧
      ∀ entry ∈ file, ∃ scope, parseEntry entry = .ok (entry.2.token, scope) ∧ Grants entry scope ∧
        ((∃ shown, Shows shown entry.2.token) ↔ entry.2.token.toList.head? ≠ some ' ' ∧
          entry.2.token.toList.all visibleAscii = true) := by
  unfold parseTokens at hparse
  cases htoml : fromToml text with
  | error message =>
      rw [htoml] at hparse
      cases hparse
  | ok file =>
      rw [htoml] at hparse
      obtain ⟨hall, hnodup⟩ := parseFile_eq_ok.1 hparse
      have hopens : ∀ header scope, requireBearer ⟨entries⟩ header = .ok scope ↔
          ∃ entry ∈ file, parseEntry entry = .ok (entry.2.token, scope) ∧
            ∃ shown, header = some shown ∧ Shows shown entry.2.token := by
        intro header scope
        rw [requireBearer_eq_ok hsome hnodup]
        constructor
        · rintro ⟨shown, secret, hheader, hshows, hmem⟩
          obtain ⟨entry, hentry, hparsed⟩ := (mem_of_parseFile hall).1 hmem
          obtain ⟨-, rfl, -⟩ := parseEntry_eq_ok.1 hparsed
          exact ⟨entry, hentry, hparsed, shown, hheader, hshows⟩
        · rintro ⟨entry, hentry, hparsed, shown, hheader, hshows⟩
          exact ⟨shown, _, hheader, hshows, (mem_of_parseFile hall).2 ⟨entry, hentry, hparsed⟩⟩
      refine ⟨file, rfl, secrets_of_parseFile hall ▸ hnodup, hopens, ?_, ?_⟩
      · intro header error herror
        unfold requireBearer at herror
        rw [if_neg hsome] at herror
        split at herror
        · exact (Except.error.inj herror).symm
        · split at herror
          · cases herror
          · exact (Except.error.inj herror).symm
      · intro entry hentry
        obtain ⟨scope, hparsed⟩ := exists_of_parseFile hall hentry
        have htoken := (parseEntry_eq_ok.1 hparsed).1
        exact ⟨scope, hparsed, grants_of_parseEntry hparsed,
          exists_shows.trans (and_iff_right htoken)⟩

/-! ## Errors and secrets -/

def twice : List (String × TokenEntry) :=
  [("a", ⟨"once", ["a"], "rw"⟩), ("b", ⟨"once", ["b"], "rw"⟩)]

end Talea.Server
