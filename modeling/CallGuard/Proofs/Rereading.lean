import CallGuard.Proofs.Commands
import CallGuard.Proofs.Regular

/-!
# The program reads what it prints

A tree that is printed in normal form can be given to the program again, which prints it unchanged:
the text is read as the tree that was printed, and that tree is its own normal form. But a tree is
only read if it has at most 64 levels, and merging trees that have as many puts them side by side
one level below a new root, so that it may print a tree that is refused, with a report of the line
and column where arrays and objects are nested too deep (`normalize_printed`, `merged_refused`).
-/

namespace CallGuard

namespace CommandLine

open Condition Json

/-! ### Samples -/

section

open String.Pos

/-- A name of one character other than a slash is one part of a path. -/
theorem splitOn_letter {name : String} (some : Raw.atEnd name 0 = false)
    (other : (Raw.get name 0 == Raw.get "/" 0) = false)
    (single : Raw.atEnd name (Raw.next name 0) = true) :
    name.splitOn "/" = [Raw.extract name 0 (Raw.next name 0)] := by
  have start : Raw.unoffsetBy 0 0 = 0 := by decide +kernel
  rw [String.splitOn, if_neg (by decide), String.splitOnAux,
    if_neg (by rw [some]; exact Bool.false_ne_true),
    if_neg (by rw [other]; exact Bool.false_ne_true), start, String.splitOnAux, if_pos single]
  rfl

end

theorem isInput_a : isInput "a" = false := by
  rw [isInput, splitOn_letter (by decide +kernel) (by decide +kernel) (by decide +kernel)]
  decide +kernel

theorem isInput_b : isInput "b" = false := by
  rw [isInput, splitOn_letter (by decide +kernel) (by decide +kernel) (by decide +kernel)]
  decide +kernel

/-- Surroundings with a file that holds a text. -/
def oneFile (text : String) : Surroundings where
  read path := if path = "a" then .ok text else .error .missing
  lookup _ := none
  input := ""

/-- Surroundings with two files that hold what is printed of two trees. -/
def twoFiles (c d : Condition) : Surroundings where
  read path := if path = "a" then .ok c.prettyJson else if path = "b" then .ok d.prettyJson
    else .error .missing
  lookup _ := none
  input := ""

/-- Without a file of settings and without variables the standard settings hold. -/
theorem loadSettings_standard {s : Surroundings} (lookup : s.lookup = fun _ => none)
    (missing : s.read "/tmp/.rolescope/config.toml" = .error .missing) :
    loadSettings s none = .ok .standard := by
  have path : settingsPath s none = "/tmp/.rolescope/config.toml" := by
    rw [settingsPath, lookup]
    decide +kernel
  have standard : Settings.load none (fun _ => none) = .ok .standard := rfl
  rw [loadSettings, path, Surroundings.has, missing, lookup]
  exact standard

theorem loadSettings_oneFile (text : String) : loadSettings (oneFile text) none = .ok .standard :=
  loadSettings_standard rfl (by simp [oneFile])

theorem loadSettings_twoFiles (c d : Condition) :
    loadSettings (twoFiles c d) none = .ok .standard :=
  loadSettings_standard rfl (by simp [twoFiles])

theorem readText_oneFile (text : String) : readText (oneFile text) "a" = .ok text := by
  rw [readText, isInput_a]
  rfl

theorem loadTrees_twoFiles {c d : Condition} (wf : WellFormed c) (wfD : WellFormed d)
    (levels : c.depth ≤ 64) (levelsD : d.depth ≤ 64) :
    loadTrees (twoFiles c d) ["a", "b"] = .ok [c, d] := by
  have parsed {e : Condition} (wf : WellFormed e) (levels : e.depth ≤ 64) :
      parseTree e.prettyJson = .ok e := by
    have read := parseTree_prettyJson_append wf Token.blank_nil
    rwa [String.ofList_nil, String.append_empty, if_pos levels] at read
  have first : loadTree (twoFiles c d) "a" = .ok c := by
    rw [loadTree, readText, isInput_a]
    show (parseTree c.prettyJson).mapError _ = _
    rw [parsed wf levels]
    rfl
  have second : loadTree ((twoFiles c d).after "a") "b" = .ok d := by
    rw [Surroundings.after, isInput_a, loadTree, readText, isInput_b]
    show (parseTree d.prettyJson).mapError _ = _
    rw [parsed wfD levelsD]
    rfl
  simp only [loadTrees, first, second]
  rfl

/-- Merging what is printed of two trees. -/
theorem runCommand_merge_twoFiles {c d : Condition} (wf : WellFormed c) (wfD : WellFormed d)
    (levels : c.depth ≤ 64) (levelsD : d.depth ≤ 64) :
    runCommand (twoFiles c d) ⟨.merge ["a", "b"], none⟩ =
      ⟨0, lines [(normalForm true (anyOf [c, d])).prettyJson], ""⟩ := by
  have read := loadTrees_twoFiles wf wfD levels levelsD
  rw [runCommand_eq (loadSettings_twoFiles c d) rfl, perform_merge read (List.cons_ne_nil _ _)]
  rfl

/-! ### The whole -/

/-- **The program reads what it prints.** Where normalizing, merging or subtracting ends with code 0
and prints a tree, a run of normalizing on the printed text, with the same settings and the same
choice on push-down, ends with code 0 and prints the same text; for merging this needs that the
printed tree has at most 63 levels below its root, as it has if no merged tree has more than 62, and
else the second run ends with code 1 and reports where the tree gets too deep. It is assumed that ids tell apart the trees that are compared
on the way to the normal form that is printed. -/
theorem normalize_printed {s s' : Surroundings} {named named' : Option String} {settings : Settings}
    (loaded : loadSettings s named = .ok settings) (loaded' : loadSettings s' named' = .ok settings)
    {command : Command} {withoutPushDown : Bool}
    (kind : command.withoutPushDown? = some withoutPushDown)
    (free : ∀ t, Reaches s settings command t →
      CollisionFree (compared (settings.pushDown && !withoutPushDown) t))
    {tree : Condition} (printed : runCommand s ⟨command, named⟩ = ⟨0, lines [tree.prettyJson], ""⟩)
    {path : String} (read : readText s' path = .ok (lines [tree.prettyJson])) :
    ((∀ files, command = .merge files → tree.depth ≤ 64) →
      runCommand s' ⟨.normalize path withoutPushDown, named'⟩ =
        ⟨0, lines [tree.prettyJson], ""⟩) ∧
    (64 < tree.depth →
      ∃ p, runCommand s' ⟨.normalize path withoutPushDown, named'⟩ = refusing path p) ∧
    ∀ files vs, command = .merge files → loadTrees s files = .ok vs →
      (∀ v ∈ vs, v.depth ≤ 63) → tree.depth ≤ 64 := by
  have performed := perform_of_runCommand loaded kind printed
  obtain ⟨t, reaches, rfl⟩ := exists_reaches_of_perform kind performed
  have wf := reaches.wellFormed
  have wfN : WellFormed (printedForm settings withoutPushDown t) := wf.normalForm _
  have fixed : printedForm settings withoutPushDown (printedForm settings withoutPushDown t) =
      printedForm settings withoutPushDown t :=
    normalForm_of_canonical wfN (everywhere_canonical_normalForm wf (free t reaches))
  have fewer : (printedForm settings withoutPushDown t).depth ≤ t.depth := depth_normalForm_le wf
  have again := runCommand_printed withoutPushDown wfN loaded' read
  rw [fixed] at again
  refine ⟨fun shallow => ?_, fun deep => ?_, ?_⟩
  · refine (if_pos ?_).mp again
    rcases reaches.depth_le with levels | ⟨files, merges⟩
    · exact fewer.trans levels
    · exact shallow files merges
  · rwa [if_neg (Nat.not_le.mpr deep)] at again
  · rintro files vs rfl readFiles levels
    exact fewer.trans (reaches.depth_merge_le readFiles levels)

theorem normalize_printed_sampleCalls :
    ∃ tree : Condition,
      runCommand (twoFiles (allowedCall [byteIs 1, byteIs 2]) (allowedCall [byteIs 1, byteIs 3]))
          ⟨.merge ["a", "b"], none⟩ = ⟨0, lines [tree.prettyJson], ""⟩ ∧
        runCommand (oneFile (lines [tree.prettyJson])) ⟨.normalize "a" false, none⟩ =
          ⟨0, lines [tree.prettyJson], ""⟩ := by
  have wf₂ : WellFormed (allowedCall [byteIs 1, byteIs 2]) := by decide +kernel
  have wf₃ : WellFormed (allowedCall [byteIs 1, byteIs 3]) := by decide +kernel
  have levels : ∀ c ∈ [allowedCall [byteIs 1, byteIs 2], allowedCall [byteIs 1, byteIs 3]],
      c.depth ≤ 63 := by decide +kernel
  have free : CollisionFree (compared true
      (anyOf [allowedCall [byteIs 1, byteIs 2], allowedCall [byteIs 1, byteIs 3]])) := by
    decide +kernel
  have read := loadTrees_twoFiles wf₂ wf₃ (by decide +kernel) (by decide +kernel)
  have merged := runCommand_merge_twoFiles wf₂ wf₃ (by decide +kernel) (by decide +kernel)
  have again := normalize_printed (loadSettings_twoFiles _ _) (loadSettings_oneFile _)
    (show (Command.merge ["a", "b"]).withoutPushDown? = some false from rfl) (fun t reaches => by
      cases reaches with
      | merge read' =>
        cases read.symm.trans read'
        exact free) merged (readText_oneFile _)
  refine ⟨_, merged, again.1 fun files merges => ?_⟩
  exact again.2.2 _ _ rfl read levels

/-! ### Trees that are too deep to be read again -/

/-- Arrays in arrays, each of which has an element that is as asked for. -/
def arrays : Nat → Condition → Condition
  | 0, c => c
  | n + 1, c => ⟨.array, .arraySome, [], [arrays n c]⟩

theorem depth_arrays (n : Nat) (c : Condition) : (arrays n c).depth = n + c.depth := by
  induction n with
  | zero => rw [arrays, Nat.zero_add]
  | succ n ih =>
    have inner : (arrays (n + 1) c).depth = 1 + max (arrays n c).depth 0 := depth_eq _
    rw [inner, ih]
    omega

theorem wellFormed_arrays (n : Nat) {c : Condition} (wf : WellFormed c) :
    WellFormed (arrays n c) := by
  induction n with
  | zero => exact wf
  | succ n ih => exact .mk rfl (List.forall_mem_singleton.mpr ih)

theorem normalForm_arrays {pushDown : Bool} (n : Nat) {c : Condition} (wf : WellFormed c)
    (same : normalForm pushDown c = c) : normalForm pushDown (arrays n c) = arrays n c := by
  induction n with
  | zero => exact same
  | succ n ih =>
    have children : assembled pushDown (arrays (n + 1) c) = arrays (n + 1) c :=
      assembled_eq_self (List.forall_mem_singleton.mpr ih)
    rw [normalForm_of_not_isSetLike (wellFormed_arrays (n + 1) wf) Bool.false_ne_true, children]
    exact prune_of_not fun both => nomatch both.1

/-- Of arrays nothing but what they are around is compared. -/
theorem compared_arrays {pushDown : Bool} (n : Nat) {c : Condition} (wf : WellFormed c) :
    compared pushDown (arrays n c) = compared pushDown c := by
  induction n with
  | zero => rfl
  | succ n ih =>
    rw [compared_of_not_isSetLike (wellFormed_arrays (n + 1) wf) Bool.false_ne_true]
    show List.flatMap _ [arrays n c] = _
    rw [List.flatMap_singleton, ih]

theorem wellFormed_byteIs (b : UInt8) : WellFormed (byteIs b) :=
  .mk rfl (List.forall_mem_nil _)

theorem normalForm_byteIs (pushDown : Bool) (b : UInt8) :
    normalForm pushDown (byteIs b) = byteIs b :=
  normalForm_of_canonical (wellFormed_byteIs b)
    (everywhere_canonical_of_leaf (wellFormed_byteIs b) rfl)

theorem compared_byteIs (pushDown : Bool) (b : UInt8) : compared pushDown (byteIs b) = [] :=
  compared_of_not_isSetLike (wellFormed_byteIs b) Bool.false_ne_true

theorem collisionFree_pair {c d : Condition} (apart : c.id ≠ d.id) : CollisionFree [c, d] := by
  intro x memX y memY same
  rw [List.mem_pair] at memX memY
  rcases memX with rfl | rfl <;> rcases memY with rfl | rfl
  · rfl
  · exact absurd same apart
  · exact absurd same.symm apart
  · rfl

/-- Two values side by side without a hinge, the first of them in arrays of arrays. -/
def sideBySide (n : Nat) (b : UInt8) : Condition :=
  anyOf [arrays (n + 1) (byteIs 0), byteIs b]

theorem wellFormed_sideBySide (n : Nat) (b : UInt8) : WellFormed (sideBySide n b) :=
  wellFormed_anyOf (List.cons_ne_nil _ _) (List.forall_mem_cons.mpr
    ⟨wellFormed_arrays (n + 1) (wellFormed_byteIs 0),
      List.forall_mem_singleton.mpr (wellFormed_byteIs b)⟩)

theorem assembled_sideBySide (n : Nat) (b : UInt8) :
    assembled true (sideBySide n b) = sideBySide n b := by
  refine assembled_eq_self (List.forall_mem_cons.mpr ⟨?_, List.forall_mem_singleton.mpr ?_⟩)
  · exact normalForm_arrays (n + 1) (wellFormed_byteIs 0) (normalForm_byteIs true 0)
  · exact normalForm_byteIs true b

section

variable {n : Nat} {b : UInt8} (apart : (arrays (n + 1) (byteIs 0)).id ≠ (byteIs b).id)

include apart

theorem prepared_sideBySide : (sideBySide n b).prepared = sideBySide n b := by
  refine prepared_of_flat rfl (Nat.le_refl 2) ?_ ?_
  · exact List.forall_mem_cons.mpr ⟨nofun, List.forall_mem_singleton.mpr nofun⟩
  · exact List.nodup_cons.mpr ⟨fun mem => apart (List.mem_singleton.mp mem),
      List.nodup_singleton _⟩

theorem normalForm_sideBySide : normalForm true (sideBySide n b) = (sideBySide n b).sort := by
  have refused : replaced? true (sideBySide n b) = none := rfl
  rw [normalForm_of_not_replaced? (wellFormed_sideBySide n b), assembled_sideBySide,
    prepared_sideBySide apart]
  rw [assembled_sideBySide, prepared_sideBySide apart, refused]

/-- Only the two alternatives are compared. -/
theorem collisionFree_sideBySide : CollisionFree (compared true (sideBySide n b)) := by
  have here : comparedAt true (sideBySide n b) = [arrays (n + 1) (byteIs 0), byteIs b] := by
    rw [comparedAt, prepared_sideBySide apart]
    rfl
  have below : (sideBySide n b).children.flatMap (compared true) = [] := by
    show compared true (arrays (n + 1) (byteIs 0)) ++ (compared true (byteIs b) ++ []) = []
    rw [compared_arrays (n + 1) (wellFormed_byteIs 0), compared_byteIs, compared_byteIs]
    rfl
  have refused : replaced? true (sideBySide n b) = none := rfl
  rw [compared_eq (wellFormed_sideBySide n b), assembled_sideBySide, prepared_sideBySide apart,
    below, here, refused]
  exact collisionFree_pair apart

end

/-- **Merging can print a tree that is refused.** Of two pairs of trees, the first of 64 levels and
the second a leaf, ids tell the trees of at least one pair apart. Merging prints them side by side
below a new root, and a run of normalizing on the printed text reports that the tree is too deep. -/
theorem merged_refused :
    ∃ b ∈ [(1 : UInt8), 2], CollisionFree (compared true (sideBySide 62 b)) ∧ ∃ tree : Condition,
      runCommand (twoFiles (arrays 63 (byteIs 0)) (byteIs b)) ⟨.merge ["a", "b"], none⟩ =
          ⟨0, lines [tree.prettyJson], ""⟩ ∧
        ∃ p, runCommand (oneFile (lines [tree.prettyJson])) ⟨.normalize "a" false, none⟩ =
          refusing "a" p := by
  obtain ⟨b, mem, apart⟩ : ∃ b ∈ [(1 : UInt8), 2], (arrays 63 (byteIs 0)).id ≠ (byteIs b).id := by
    have leaves : (byteIs 1).id ≠ (byteIs 2).id := by decide +kernel
    by_cases first : (arrays 63 (byteIs 0)).id = (byteIs 1).id
    · exact ⟨2, by simp, fun second => leaves (first.symm.trans second)⟩
    · exact ⟨1, by simp, first⟩
  have wf : WellFormed (sideBySide 62 b).sort :=
    normalForm_sideBySide apart ▸ (wellFormed_sideBySide 62 b).normalForm true
  have deep : ¬ (sideBySide 62 b).sort.depth ≤ 64 := by
    have child : arrays 63 (byteIs 0) ∈ (sideBySide 62 b).sort.children :=
      (sort_children_perm _).mem_iff.mpr List.mem_cons_self
    have levels : (arrays 63 (byteIs 0)).depth = 64 := depth_arrays 63 (byteIs 0)
    have := depth_lt_of_mem child
    omega
  have leaf : (byteIs b).depth = 1 := rfl
  have merged := runCommand_merge_twoFiles (wellFormed_arrays 63 (wellFormed_byteIs 0))
    (wellFormed_byteIs b) (depth_arrays 63 (byteIs 0)).le (by omega)
  rw [show anyOf [arrays 63 (byteIs 0), byteIs b] = sideBySide 62 b from rfl,
    normalForm_sideBySide apart] at merged
  refine ⟨b, mem, collisionFree_sideBySide apart, _, merged, ?_⟩
  have again := runCommand_printed false wf (loadSettings_oneFile _) (readText_oneFile _)
  rwa [if_neg deep] at again

end CommandLine

end CallGuard
