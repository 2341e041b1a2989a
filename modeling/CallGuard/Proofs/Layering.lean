import CallGuard.CommandLine.Program
import CallGuard.Proofs.HexText
import CallGuard.Proofs.PlainLines
import CallGuard.Proofs.Results

/-!
# Layers of settings

Each source of settings, the file and the environment, gives a `Layer`: some of the settings, and
nothing for the others. What is loaded is the layer of the environment over that of the file over
the standard settings, and it is loaded exactly when both layers can be read, the file is in order
by itself and what results is (`load_layered`). Settings are in order when their texts write an
account and a salt (`Places`), so the commands always have a placement to work with.
-/

namespace CallGuard

namespace Settings

/-! ### The account and the salt -/

/-- That the texts of settings write the account and the salt of a placement. -/
def Places (s : Settings) (p : Placement) : Prop :=
  Hex.Writes s.deployer p.deployer.bytes ∧ Hex.Writes s.salt p.salt.bytes

theorem fixedHex_eq_ok_iff {field text : String} {n : Nat} {fixed : FixedBytes n} :
    fixedHex field n text = .ok fixed ↔ Hex.Writes text fixed.bytes := by
  rw [← Hex.decode_eq_ok_iff, fixedHex]
  cases Hex.decode text with
  | error fault => simp
  | ok bytes =>
    dsimp only
    rw [Except.ok.injEq, ← FixedBytes.ofBytes?_eq_some_iff]
    cases (FixedBytes.ofBytes? bytes : Option (FixedBytes n)) <;> simp

theorem placement_eq_ok_iff {s : Settings} {p : Placement} :
    s.placement = .ok p ↔ s.Places p := by
  simp only [placement, bind_eq_ok_iff, deployerBytes, saltBytes, fixedHex_eq_ok_iff]
  constructor
  · rintro ⟨deployer, writesDeployer, salt, writesSalt, ⟨⟩⟩
    exact ⟨writesDeployer, writesSalt⟩
  · rintro ⟨writesDeployer, writesSalt⟩
    exact ⟨p.deployer.account, writesDeployer, p.salt, writesSalt, rfl⟩

theorem validate_eq_ok_iff {s : Settings} : s.validate = .ok () ↔ ∃ p, s.Places p := by
  simp [validate, map_eq_ok_iff, placement_eq_ok_iff]

/-- The standard settings are in order. -/
theorem standard_places : standard.Places Placement.standard := by
  constructor
  · refine ⟨['0', 'x'], by decide, standard.deployer.toList.drop 2, ?_, ?_⟩
    · decide
    · decide
  · exact Hex.writes_encode _

/-! ### Layers -/

/-- The settings that one source gives. -/
structure Layer where
  /-- Whether alternations are factored. -/
  pushDown : Option Bool
  /-- The account that creates contracts, as text. -/
  deployer : Option String
  /-- The salt of contracts, as text. -/
  salt : Option String

/-- Settings with those of a layer in their place. -/
def Layer.over (l : Layer) (s : Settings) : Settings where
  pushDown := l.pushDown.getD s.pushDown
  deployer := l.deployer.getD s.deployer
  salt := l.salt.getD s.salt

/-! ### The file -/

/-- What a document gives for a setting, by the name of its section, its key in a table and its
position in an array. -/
inductive Gives (es : Toml.Entries) (name key : String) (position : Nat) :
    Option Toml.Node → Prop where
  /-- The document has no such section. -/
  | missing : Toml.Entries.get? es name = none → Gives es name key position none
  /-- The section is a table. -/
  | table {origin : Toml.Origin} {entries : Toml.Entries} :
    Toml.Entries.get? es name = some (.table origin entries) →
    Gives es name key position (Toml.Entries.get? entries key)
  /-- The section is an array. -/
  | array {items : List Toml.Node} :
    Toml.Entries.get? es name = some (.array items) → Gives es name key position items[position]?
  /-- A moment is taken for a section in which nothing is set. -/
  | moment : Toml.Entries.get? es name = some .moment → Gives es name key position none

/-- That a document gives the settings of a layer, each of its own sort. -/
structure Layer.InDocument (l : Layer) (es : Toml.Entries) : Prop where
  pushDown : Gives es "normalize" "push_down" 0 (l.pushDown.map .boolean)
  deployer : Gives es "addressing" "deployer" 0 (l.deployer.map .string)
  salt : Gives es "addressing" "salt" 1 (l.salt.map .string)

/-- That a file, if there is one, holds a document that gives the settings of a layer, and that
these are in order where the standard settings hold besides. -/
inductive Layer.OfFile : Layer → Option String → Prop where
  /-- There is no file. -/
  | absent : OfFile ⟨none, none, none⟩ none
  /-- There is a file. -/
  | present {l : Layer} {content : String} {es : Toml.Entries} {p : Placement} :
    Toml.parse content = some es → l.InDocument es → (l.over standard).Places p →
    OfFile l (some content)

theorem setting?_eq_some_iff {es : Toml.Entries} {name key : String} {position : Nat}
    {given : Option Toml.Node} :
    setting? key position ((Toml.Entries.get? es name).getD (.table .implied [])) = some given ↔
      Gives es name key position given := by
  constructor
  · intro h
    cases found : Toml.Entries.get? es name with
    | none =>
      rw [found] at h
      cases h
      exact .missing found
    | some node =>
      rw [found] at h
      cases node with
      | table origin entries =>
        cases h
        exact .table found
      | array items =>
        cases h
        exact .array found
      | moment =>
        cases h
        exact .moment found
      | string text => cases h
      | boolean value => cases h
      | number => cases h
      | tables items => cases h
  · rintro (found | found | found | found)
    · rw [found]
      rfl
    · rw [found]
      rfl
    · rw [found]
      rfl
    · rw [found]
      rfl

theorem flag?_eq_some_iff {missing b : Bool} {given : Option Toml.Node} :
    flag? missing given = some b ↔
      ∃ value : Option Bool, given = value.map .boolean ∧ b = value.getD missing := by
  constructor
  · intro h
    unfold flag? at h
    split at h
    · exact ⟨none, rfl, (Option.some.inj h).symm⟩
    · exact ⟨some _, rfl, (Option.some.inj h).symm⟩
    · cases h
  · rintro ⟨value, rfl, rfl⟩
    cases value <;> rfl

theorem text?_eq_some_iff {missing text : String} {given : Option Toml.Node} :
    text? missing given = some text ↔
      ∃ value : Option String, given = value.map .string ∧ text = value.getD missing := by
  constructor
  · intro h
    unfold text? at h
    split at h
    · exact ⟨none, rfl, (Option.some.inj h).symm⟩
    · exact ⟨some _, rfl, (Option.some.inj h).symm⟩
    · cases h
  · rintro ⟨value, rfl, rfl⟩
    cases value <;> rfl

/-- The settings of a document are its layer over the standard settings. -/
theorem ofEntries_eq_some_iff {es : Toml.Entries} {s : Settings} :
    ofEntries es = some s ↔ ∃ l : Layer, l.InDocument es ∧ s = l.over standard := by
  simp only [ofEntries, Option.bind_eq_bind, Option.bind_eq_some_iff, setting?_eq_some_iff,
    flag?_eq_some_iff, text?_eq_some_iff]
  constructor
  · rintro ⟨_, givesPushDown, _, ⟨pushDown, rfl, rfl⟩, _, givesDeployer, _, ⟨deployer, rfl, rfl⟩,
      _, givesSalt, _, ⟨salt, rfl, rfl⟩, made⟩
    exact ⟨⟨pushDown, deployer, salt⟩, ⟨givesPushDown, givesDeployer, givesSalt⟩,
      (Option.some.inj made).symm⟩
  · rintro ⟨l, gives, rfl⟩
    exact ⟨_, gives.pushDown, _, ⟨l.pushDown, rfl, rfl⟩, _, gives.deployer, _,
      ⟨l.deployer, rfl, rfl⟩, _, gives.salt, _, ⟨l.salt, rfl, rfl⟩, rfl⟩

theorem ofFile_eq_ok_iff {content : String} {s : Settings} :
    ofFile content = .ok s ↔ ∃ l : Layer, l.OfFile (some content) ∧ s = l.over standard := by
  have read : (Toml.parse content).bind ofEntries = some s ↔
      ∃ es, Toml.parse content = some es ∧ ∃ l : Layer, l.InDocument es ∧ s = l.over standard := by
    simp only [Option.bind_eq_some_iff, ofEntries_eq_some_iff]
  have inOrder : ofFile content = .ok s ↔
      (Toml.parse content).bind ofEntries = some s ∧ s.validate = .ok () := by
    rw [ofFile]
    cases (Toml.parse content).bind ofEntries with
    | none => simp
    | some t =>
      simp only [map_eq_ok_iff, Option.some.injEq]
      constructor
      · rintro ⟨⟨⟩, valid, rfl⟩
        exact ⟨rfl, valid⟩
      · rintro ⟨rfl, valid⟩
        exact ⟨(), valid, rfl⟩
  rw [inOrder, read, validate_eq_ok_iff]
  constructor
  · rintro ⟨⟨es, parsed, l, gives, rfl⟩, p, places⟩
    exact ⟨l, .present parsed gives places, rfl⟩
  · rintro ⟨l, ⟨⟩ | ⟨parsed, gives, places⟩, rfl⟩
    exact ⟨⟨_, parsed, l, gives, rfl⟩, _, places⟩

/-! ### The environment -/

/-- The words of a flag. -/
def flagWords : Bool → List String
  | true => ["true", "1"]
  | false => ["false", "0"]

/-- That a text is a word for a truth value, in letters of either case and with blanks around it. -/
def FlagText (text : String) (value : Bool) : Prop :=
  ∃ before word after, text.toList = before ++ word ++ after ∧
    (∀ c ∈ before ++ after, Text.isBlank c) ∧
    String.ofList (word.map Char.toLower) ∈ flagWords value

/-- That the environment gives the settings of a layer. -/
structure Layer.InEnvironment (l : Layer) (lookup : String → Option String) : Prop where
  pushDown : Option.Rel FlagText (lookup "ROLESCOPE_PUSH_DOWN") l.pushDown
  deployer : l.deployer = lookup "ROLESCOPE_DEPLOYER"
  salt : l.salt = lookup "ROLESCOPE_SALT"

theorem isBlank_of_flagWord {word : List Char} {value : Bool}
    (known : String.ofList (word.map Char.toLower) ∈ flagWords value) :
    ∀ c ∈ word, Text.isBlank c = false := by
  have solid : ∀ value, ∀ known ∈ flagWords value, ∀ c ∈ known.toList, Text.isBlank c = false := by
    simp [flagWords]
    decide
  intro c mem
  have lower : c.toLower ∈ (String.ofList (word.map Char.toLower)).toList := by
    simpa using ⟨c, mem, rfl⟩
  cases blank : Text.isBlank c with
  | false => rfl
  | true =>
    have other := solid value _ known _ lower
    rw [Text.toLower_of_isBlank blank, blank] at other
    cases other

/-- **The text of a flag** is a word with blanks around it. -/
theorem plainFlag_mem_iff {text : String} {value : Bool} :
    plainFlag text ∈ flagWords value ↔ FlagText text value := by
  constructor
  · intro known
    obtain ⟨before, after, split, blank⟩ := Text.exists_trim text.toList
    exact ⟨before, _, after, split, blank, known⟩
  · rintro ⟨before, word, after, split, blank, known⟩
    rwa [plainFlag, split, Text.trim_append blank (isBlank_of_flagWord known)]

theorem not_mem_flagWords_false {word : String} (yes : word ∈ flagWords true) :
    word ∉ flagWords false := by
  have apart : ∀ word ∈ flagWords true, word ∉ flagWords false := by decide
  exact apart word yes

theorem parseFlag_eq_ok_iff {name text : String} {value : Bool} :
    parseFlag name text = .ok value ↔ FlagText text value := by
  have cascade : parseFlag name text =
      if plainFlag text ∈ flagWords true then .ok true
      else if plainFlag text ∈ flagWords false then .ok false
      else .error (.notFlag name (plainFlag text)) := by
    simp [parseFlag, flagWords]
  rw [← plainFlag_mem_iff, cascade]
  by_cases yes : plainFlag text ∈ flagWords true
  · cases value <;> simp [yes, not_mem_flagWords_false yes]
  · by_cases no : plainFlag text ∈ flagWords false <;> cases value <;> simp [yes, no]

/-- What the environment changes are the settings that its layer gives. -/
theorem override_eq_ok_iff {s c : Settings} {lookup : String → Option String} :
    s.override lookup = .ok c ↔ ∃ l : Layer, l.InEnvironment lookup ∧ c = l.over s := by
  let layer (pushDown : Option Bool) : Layer :=
    ⟨pushDown, lookup "ROLESCOPE_DEPLOYER", lookup "ROLESCOPE_SALT"⟩
  cases flag : lookup "ROLESCOPE_PUSH_DOWN" with
  | none =>
    have made : s.override lookup = .ok ((layer none).over s) := by
      simp only [override, flag]
      rfl
    rw [made, Except.ok.injEq]
    constructor
    · rintro rfl
      exact ⟨layer none, ⟨flag ▸ .none, rfl, rfl⟩, rfl⟩
    · rintro ⟨⟨pushDown, deployer, salt⟩, ⟨given, rfl, rfl⟩, rfl⟩
      rw [flag] at given
      cases given
      rfl
  | some text =>
    have made : s.override lookup =
        (parseFlag "ROLESCOPE_PUSH_DOWN" text).map fun value => (layer (some value)).over s := by
      simp only [override, flag]
      rfl
    simp only [made, map_eq_ok_iff, parseFlag_eq_ok_iff]
    constructor
    · rintro ⟨value, means, rfl⟩
      exact ⟨layer (some value), ⟨flag ▸ .some means, rfl, rfl⟩, rfl⟩
    · rintro ⟨⟨pushDown, deployer, salt⟩, ⟨given, rfl, rfl⟩, rfl⟩
      rw [flag] at given
      cases given with
      | some means => exact ⟨_, means, rfl⟩

/-! ### Both -/

/-- The settings before the environment is looked at. -/
def ofSource : Option String → Except SettingsFault Settings
  | some content => ofFile content
  | none => .ok standard

theorem ofSource_eq_ok_iff {file : Option String} {s : Settings} :
    ofSource file = .ok s ↔ ∃ l : Layer, l.OfFile file ∧ s = l.over standard := by
  cases file with
  | some content => exact ofFile_eq_ok_iff
  | none =>
    constructor
    · rintro ⟨⟩
      exact ⟨_, .absent, rfl⟩
    · rintro ⟨_, ⟨⟩, rfl⟩
      rfl

theorem load_eq (file : Option String) (lookup : String → Option String) :
    load file lookup = (do
      let base ← ofSource file
      let s ← base.override lookup
      s.validate
      .ok s) := by
  cases file <;> rfl

/-- **What is loaded** is the environment over the file over the standard settings. -/
theorem load_eq_ok_iff {file : Option String} {lookup : String → Option String} {c : Settings} :
    load file lookup = .ok c ↔ ∃ own env : Layer, own.OfFile file ∧ env.InEnvironment lookup ∧
      c = env.over (own.over standard) ∧ ∃ p, c.Places p := by
  simp only [load_eq, bind_eq_ok_iff, ofSource_eq_ok_iff, override_eq_ok_iff]
  constructor
  · rintro ⟨_, ⟨own, ofFile, rfl⟩, _, ⟨env, inEnvironment, rfl⟩, ⟨⟩, valid, ⟨⟩⟩
    exact ⟨own, env, ofFile, inEnvironment, rfl, validate_eq_ok_iff.mp valid⟩
  · rintro ⟨own, env, ofFile, inEnvironment, rfl, valid⟩
    exact ⟨_, ⟨own, ofFile, rfl⟩, _, ⟨env, inEnvironment, rfl⟩, (), validate_eq_ok_iff.mpr valid,
      rfl⟩

/-- A file that is not in order is refused whatever the environment says. -/
theorem load_eq_error {file : Option String} (wrong : ∀ own : Layer, ¬own.OfFile file) :
    ∃ fault, ∀ lookup, load file lookup = .error fault := by
  cases read : ofSource file with
  | ok s =>
    obtain ⟨own, ofFile, -⟩ := ofSource_eq_ok_iff.mp read
    exact absurd ofFile (wrong own)
  | error fault =>
    refine ⟨fault, fun lookup => ?_⟩
    rw [load_eq, read, error_bind]

/-- **Settings are loaded in layers.** They are loaded exactly when the file, if there is one, is in
order by itself, what the environment gives can be read, and the account and the salt that result
are bytes of the right number; each setting is that of the environment, or else of the file, or else
the standard one. The commands then have a placement by them, and no environment makes up for a file
that is not in order. -/
theorem load_layered (file : Option String) (lookup : String → Option String) :
    (∀ c, load file lookup = .ok c ↔ ∃ own env : Layer,
      own.OfFile file ∧ env.InEnvironment lookup ∧ c = env.over (own.over standard) ∧
      ∃ p, c.Places p) ∧
    (∀ c, load file lookup = .ok c → ∃ p, CommandLine.placementOf c = .ok p ∧ c.Places p) ∧
    ((∀ own : Layer, ¬own.OfFile file) → ∃ fault, ∀ other, load file other = .error fault) := by
  refine ⟨fun c => load_eq_ok_iff, ?_, load_eq_error⟩
  intro c loaded
  obtain ⟨own, env, -, -, -, p, places⟩ := load_eq_ok_iff.mp loaded
  refine ⟨p, ?_, places⟩
  rw [CommandLine.placementOf, mapError_eq_ok_iff]
  exact placement_eq_ok_iff.mpr places

/-- The file turns factoring off and the environment names the account; the account of another file
has too few bytes. -/
theorem load_layered_account :
    load (some "[normalize]\npush_down = false\n")
        (fun name => if name = "ROLESCOPE_DEPLOYER" then some (Hex.encode commonFactory.bytes)
          else none) =
      .ok ⟨false, Hex.encode commonFactory.bytes, standard.salt⟩ ∧
    ∃ fault, ∀ other, load (some "[addressing]\ndeployer = \"0x00\"\n") other = .error fault := by
  let flag : List Toml.Line := [.header "normalize", .setting "push_down" (.boolean false)]
  have flagPlain : ∀ l ∈ flag, l.Plain := by
    simp [flag, Toml.Line.Plain, Toml.Scalar.Plain, Toml.BareKey]
    decide
  have parsed : Toml.parse "[normalize]\npush_down = false\n" =
      some [("normalize", .table .header [("push_down", .boolean false)])] :=
    Toml.parse_written flagPlain (by decide)
  have own : Layer.OfFile ⟨some false, none, none⟩ (some "[normalize]\npush_down = false\n") :=
    .present parsed ⟨setting?_eq_some_iff.mp rfl, .missing rfl, .missing rfl⟩ standard_places
  let zero : List Toml.Line := [.header "addressing", .setting "deployer" (.string "0x00")]
  have zeroPlain : ∀ l ∈ zero, l.Plain := by
    simp [zero, Toml.Line.Plain, Toml.Scalar.Plain, Toml.BareKey]
    decide
  have short : Toml.parse "[addressing]\ndeployer = \"0x00\"\n" =
      some [("addressing", .table .header [("deployer", .string "0x00")])] :=
    Toml.parse_written zeroPlain (by decide)
  constructor
  · exact ((load_layered _ _).1 _).mpr
      ⟨_, ⟨none, some (Hex.encode commonFactory.bytes), none⟩, own, ⟨.none, rfl, rfl⟩, rfl,
        Placement.standard, Hex.writes_encode _, standard_places.2⟩
  · refine (load_layered _ fun _ => none).2.2 fun own ofFile => ?_
    have refused := ofFile_eq_ok_iff.mpr ⟨own, ofFile, rfl⟩
    rw [Settings.ofFile, short] at refused
    cases refused

end Settings

end CallGuard
