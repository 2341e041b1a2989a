import CallGuard.Proofs.Layering

/-!
# Settings as a file

Settings that have been loaded are written to a file of plain lines, and loading that file gives
them again, each text as it was configured (`load_toml`). What makes the texts plain is that they
were found to be in order: hexadecimal text has no character that a string in a document would have
to escape.
-/

namespace CallGuard

namespace Settings

/-! ### The lines -/

/-- The lines of settings as a file. -/
def tomlLines (s : Settings) : List Toml.Line :=
  [.header "normalize", .setting "push_down" (.boolean s.pushDown), .blank,
    .header "addressing", .setting "deployer" (.string s.deployer),
    .setting "salt" (.string s.salt)]

/-- The document that these lines make. -/
def tomlEntries (s : Settings) : Toml.Entries :=
  [("normalize", .table .header [("push_down", .boolean s.pushDown)]),
    ("addressing", .table .header [("deployer", .string s.deployer), ("salt", .string s.salt)])]

theorem toList_toml (s : Settings) : s.toml.toList = s.tomlLines.flatMap Toml.Line.written := by
  obtain ⟨pushDown, deployer, salt⟩ := s
  unfold toml
  cases pushDown <;> simp [tomlLines, Toml.Line.written, Toml.Scalar.written]

theorem isVisible_of_hexValue? {c : Char} {n : Nat} (digit : Text.hexValue? c = some n) :
    Toml.isVisible c := by
  have range : 0x30 ≤ c.toNat ∧ c.toNat ≤ 0x66 := by
    grind [Text.hexValue?]
  simp [Toml.isVisible]
  omega

/-- Hexadecimal text has nothing to escape. -/
theorem plain_of_writes {text : String} {bytes : Bytes} (h : Hex.Writes text bytes) :
    (Toml.Scalar.string text).Plain := by
  intro c mem
  rcases h.forall_mem c mem with rfl | rfl | ⟨n, digit⟩
  · decide
  · decide
  · refine ⟨isVisible_of_hexValue? digit, ?_, ?_⟩
    · rintro rfl
      cases digit
    · rintro rfl
      cases digit

theorem plain_tomlLines {s : Settings} {p : Placement} (places : s.Places p) :
    ∀ l ∈ s.tomlLines, l.Plain := by
  have deployer := plain_of_writes places.1
  have salt := plain_of_writes places.2
  have keys : ∀ key ∈ ["normalize", "push_down", "addressing", "deployer", "salt"],
      Toml.BareKey key := by
    simp [Toml.BareKey]
    decide
  have value : ∀ b, (Toml.Scalar.boolean b).Plain := fun b => trivial
  intro l mem
  simp only [tomlLines, List.mem_cons, List.not_mem_nil, or_false] at mem
  rcases mem with rfl | rfl | rfl | rfl | rfl | rfl
  · exact keys _ (by decide)
  · exact ⟨keys _ (by decide), value _⟩
  · trivial
  · exact keys _ (by decide)
  · exact ⟨keys _ (by decide), deployer⟩
  · exact ⟨keys _ (by decide), salt⟩

/-- Settings that are in order are read from their file as the document that they make. -/
theorem parse_toml {s : Settings} {p : Placement} (places : s.Places p) :
    Toml.parse s.toml = some s.tomlEntries := by
  rw [Toml.parse_written (plain_tomlLines places) s.toList_toml]
  rfl

/-! ### Loading -/

/-- The document of settings gives all of them. -/
theorem inDocument_tomlEntries (s : Settings) :
    Layer.InDocument ⟨some s.pushDown, some s.deployer, some s.salt⟩ s.tomlEntries :=
  ⟨setting?_eq_some_iff.mp rfl, setting?_eq_some_iff.mp rfl, setting?_eq_some_iff.mp rfl⟩

/-- **Loaded settings load again** from the file that is written of them, whatever file and
environment they came from, if the environment is silent the second time. -/
theorem load_toml {file : Option String} {lookup other : String → Option String} {s : Settings}
    (loaded : load file lookup = .ok s)
    (silent : ∀ name ∈ ["ROLESCOPE_PUSH_DOWN", "ROLESCOPE_DEPLOYER", "ROLESCOPE_SALT"],
      other name = none) :
    load (some s.toml) other = .ok s := by
  obtain ⟨-, -, -, -, -, p, places⟩ := load_eq_ok_iff.mp loaded
  have given : Layer.InEnvironment ⟨none, none, none⟩ other := by
    constructor
    · rw [silent "ROLESCOPE_PUSH_DOWN" (by decide)]
      exact .none
    · exact (silent "ROLESCOPE_DEPLOYER" (by decide)).symm
    · exact (silent "ROLESCOPE_SALT" (by decide)).symm
  exact load_eq_ok_iff.mpr
    ⟨_, _, .present (parse_toml places) (inDocument_tomlEntries s) places, given, rfl, p, places⟩

/-- Settings with an account in capitals and without a prefix, from the environment alone. -/
theorem load_toml_capitals :
    let s : Settings := ⟨true, "CE0042B868300000D44A59004DA54A005FFDCF9F", standard.salt⟩
    load none (fun name => if name = "ROLESCOPE_DEPLOYER" then some s.deployer else none) = .ok s ∧
      load (some s.toml) (fun _ => none) = .ok s := by
  intro s
  have account : Hex.Writes s.deployer commonFactory.bytes :=
    ⟨[], by decide, s.deployer.toList, rfl, by decide⟩
  have loaded : load none
      (fun name => if name = "ROLESCOPE_DEPLOYER" then some s.deployer else none) = .ok s :=
    load_eq_ok_iff.mpr ⟨_, ⟨none, some s.deployer, none⟩, .absent, ⟨.none, rfl, rfl⟩, rfl,
      Placement.standard, account, standard_places.2⟩
  exact ⟨loaded, load_toml loaded fun name _ => rfl⟩

end Settings

end CallGuard
