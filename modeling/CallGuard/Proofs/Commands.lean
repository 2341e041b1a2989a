import CallGuard.Proofs.Levels
import CallGuard.Proofs.Nesting

/-!
# What commands print

The commands that print a tree come to some tree and print its normal form: the tree in a file, the
alternation of the trees in several files, or what is left of one tree without another (`Reaches`).
Normalizing and subtracting add no level to the trees that were read; merging may add one. What was
printed of a tree is read back by a run of normalizing if the tree has at most 64 levels
(`runCommand_printed`).
-/

namespace CallGuard

namespace CommandLine

open Condition Json

/-! ### What is printed -/

theorem lines_singleton (l : String) : lines [l] = l ++ "\n" := by
  simp [lines, String.join]

theorem lines_prettyJson_inj {c d : Condition} (h : lines [c.prettyJson] = lines [d.prettyJson]) :
    c = d := by
  rw [lines_singleton, lines_singleton] at h
  exact prettyJson_inj (String.append_left_inj _ |>.mp h)

/-- The name of an outcome that leaves no tree is not what is printed of a tree. -/
theorem lines_name_ne (outcome : Subtraction) (c : Condition) :
    lines [outcome.name] ≠ lines [c.prettyJson] := by
  intro h
  obtain ⟨rest, starts⟩ := c.prettyJson_starts
  have texts := congrArg String.toList h
  rw [lines_singleton, lines_singleton, String.toList_append, String.toList_append, starts] at texts
  cases outcome <;> simp [Subtraction.name] at texts

/-- Whether a command that prints trees leaves out push-down; none for the other commands. -/
def Command.withoutPushDown? : Command → Option Bool
  | .normalize _ withoutPushDown => some withoutPushDown
  | .merge _ | .subtract _ _ => some false
  | _ => none

/-- A command comes to a tree of which it prints the normal form. -/
inductive Reaches (s : Surroundings) (settings : Settings) : Command → Condition → Prop where
  /-- The tree in the file. -/
  | normalize {file : String} {withoutPushDown : Bool} {c : Condition}
    (read : loadTree s file = .ok c) : Reaches s settings (.normalize file withoutPushDown) c
  /-- The alternation of the trees in the files. -/
  | merge {files : List String} {vs : List Condition} (read : loadTrees s files = .ok vs)
    (some : vs ≠ []) : Reaches s settings (.merge files) (anyOf vs)
  /-- What the second tree leaves of the first, both in normal form. -/
  | subtract {condition fragment : String} {c f r : Condition}
    (read : loadTrees s [condition, fragment] = .ok [c, f])
    (left : difference (normalForm settings.pushDown c) (normalForm settings.pushDown f) =
      .remainder r) : Reaches s settings (.subtract condition fragment) r

section

variable {s : Surroundings} {settings : Settings} {command : Command} {withoutPushDown : Bool}
  {t : Condition}

/-- The normal form of a tree that a command reaches. -/
def printedForm (settings : Settings) (withoutPushDown : Bool) (t : Condition) : Condition :=
  normalForm (settings.pushDown && !withoutPushDown) t

theorem completed_pure {α : Type} (a : α) : completed (pure a) = .ok a :=
  rfl

theorem completed_normalize {pushDown : Bool} {c : Condition} (wf : WellFormed c) :
    completed (c.normalize pushDown) = .ok (normalForm pushDown c) := by
  rw [normalize_eq wf, completed_pure]

theorem perform_normalize {named : Option String} {file : String} {c : Condition}
    (read : loadTree s file = .ok c) :
    perform s settings named (.normalize file withoutPushDown) =
      .ok (lines [(printedForm settings withoutPushDown c).prettyJson]) := by
  simp only [perform, read]
  show (completed _ >>= fun _ => _) = _
  rw [completed_normalize (loadTree_ok read).1]
  rfl

theorem perform_merge {named : Option String} {files : List String} {vs : List Condition}
    (read : loadTrees s files = .ok vs) (some : vs ≠ []) :
    perform s settings named (.merge files) =
      .ok (lines [(printedForm settings false (anyOf vs)).prettyJson]) := by
  have merged : merge settings.pushDown vs = _ :=
    merge_eq some fun v mem => (loadTrees_ok read v mem).1
  simp only [perform, read]
  show (completed (merge settings.pushDown vs) >>= fun _ => _) = _
  rw [merged, completed_pure, printedForm, Bool.not_false, Bool.and_true]
  rfl

theorem runCommand_eq {named : Option String} (loaded : loadSettings s named = .ok settings)
    (kind : command.withoutPushDown? = some withoutPushDown) :
    runCommand s ⟨command, named⟩ =
      match perform s settings named command with
      | .error failure => failure.outcome
      | .ok output => ⟨0, output, ""⟩ := by
  rw [runCommand, loaded]
  cases command with
  | check file => cases kind
  | _ => rfl

theorem perform_of_runCommand {named : Option String} {output : String}
    (loaded : loadSettings s named = .ok settings)
    (kind : command.withoutPushDown? = some withoutPushDown)
    (h : runCommand s ⟨command, named⟩ = ⟨0, output, ""⟩) :
    perform s settings named command = .ok output := by
  rw [runCommand_eq loaded kind] at h
  split at h
  · cases h
  · rename_i performed
    rw [performed, (Outcome.mk.inj h).2.1]

theorem subtractLines_eq {c f : Condition} (wf : WellFormed c) (wfF : WellFormed f) :
    subtractLines settings c f =
      match difference (normalForm settings.pushDown c) (normalForm settings.pushDown f) with
      | .remainder r => .ok (lines [(normalForm settings.pushDown r).prettyJson])
      | outcome => .ok (lines [outcome.name]) := by
  have wfN := wf.normalForm settings.pushDown
  have wfNF := wfF.normalForm settings.pushDown
  have left := leaves_wellFormed wfN wfNF
  rw [subtractLines, completed_normalize wf, completed_normalize wfF]
  show (completed (subtract _ _) >>= fun _ => _) = _
  rw [subtract_eq wfN wfNF, completed_pure]
  cases outcome : difference (normalForm settings.pushDown c) (normalForm settings.pushDown f) with
  | remainder r =>
    rw [outcome] at left
    show (completed (r.normalize settings.pushDown) >>= fun _ => _) = _
    rw [completed_normalize left]
    rfl
  | _ => rfl

/-- **A command that prints a tree** prints the normal form of one that it reaches. -/
theorem exists_reaches_of_perform {named : Option String} {c : Condition}
    (kind : command.withoutPushDown? = some withoutPushDown)
    (h : perform s settings named command = .ok (lines [c.prettyJson])) :
    ∃ t, Reaches s settings command t ∧ c = printedForm settings withoutPushDown t := by
  cases command with
  | normalize file off =>
    obtain rfl : off = withoutPushDown := Option.some.inj kind
    obtain ⟨t, read, -⟩ := bind_eq_ok_iff.mp h
    have read := mapError_eq_ok_iff.mp read
    rw [perform_normalize read] at h
    exact ⟨t, .normalize read, (lines_prettyJson_inj (Except.ok.inj h)).symm⟩
  | merge files =>
    obtain rfl : false = withoutPushDown := Option.some.inj kind
    obtain ⟨vs, read, next⟩ := bind_eq_ok_iff.mp h
    have some : vs ≠ [] := by
      rintro rfl
      cases next
    rw [perform_merge read some] at h
    exact ⟨anyOf vs, .merge read some, (lines_prettyJson_inj (Except.ok.inj h)).symm⟩
  | subtract condition fragment =>
    obtain rfl : false = withoutPushDown := Option.some.inj kind
    obtain ⟨trees, read, next⟩ := bind_eq_ok_iff.mp h
    obtain ⟨t, f, rfl⟩ := List.length_eq_two.mp (length_of_loadTrees read)
    have wf := loadTrees_ok read
    have next : subtractLines settings t f = .ok (lines [c.prettyJson]) := next
    rw [subtractLines_eq (wf t (by simp)).1 (wf f (by simp)).1] at next
    split at next
    · rename_i r left
      refine ⟨r, .subtract read left, ?_⟩
      rw [printedForm, Bool.not_false, Bool.and_true]
      exact (lines_prettyJson_inj (Except.ok.inj next)).symm
    · exact absurd (Except.ok.inj next) (lines_name_ne _ c)
  | _ => cases kind

/-! ### Levels of what is printed -/

theorem Reaches.wellFormed (h : Reaches s settings command t) : WellFormed t := by
  cases h with
  | normalize read => exact (loadTree_ok read).1
  | merge read some => exact wellFormed_anyOf some fun v mem => (loadTrees_ok read v mem).1
  | @subtract condition fragment c f r read left =>
    have wf := loadTrees_ok read
    exact wellFormed_of_difference ((wf c (by simp)).1.normalForm settings.pushDown)
      ((wf f (by simp)).1.normalForm settings.pushDown) left

/-- Only merging reaches a tree with more than 64 levels. -/
theorem Reaches.depth_le (h : Reaches s settings command t) :
    t.depth ≤ 64 ∨ ∃ files, command = .merge files := by
  cases h with
  | normalize read => exact .inl (loadTree_ok read).2
  | merge => exact .inr ⟨_, rfl⟩
  | @subtract condition fragment c f r read left =>
    obtain ⟨wf, levels⟩ := loadTrees_ok read c (by simp)
    have kept := leaves_depth (wf.normalForm settings.pushDown)
      ((loadTrees_ok read f (by simp)).1.normalForm settings.pushDown)
    rw [left] at kept
    exact .inl (Nat.le_trans kept ((depth_normalForm_le wf).trans levels))

/-- The alternation of trees has a level more than the deepest of them. -/
theorem Reaches.depth_merge_le {files : List String} (h : Reaches s settings (.merge files) t)
    {vs : List Condition} (read : loadTrees s files = .ok vs) {n : Nat}
    (levels : ∀ v ∈ vs, v.depth ≤ n) : t.depth ≤ n + 1 := by
  cases h with
  | merge read' =>
    cases read.symm.trans read'
    exact depth_le_succ_iff.mpr levels

/-! ### Reading what was printed -/

theorem runCommand_normalize {named : Option String} {path text : String}
    (loaded : loadSettings s named = .ok settings) (read : readText s path = .ok text) :
    runCommand s ⟨.normalize path withoutPushDown, named⟩ =
      match parseTree text with
      | .ok c => ⟨0, lines [(printedForm settings withoutPushDown c).prettyJson], ""⟩
      | .error message => (Failure.file s!"{path}: {message}").outcome := by
  have loadedTree : loadTree s path =
      (parseTree text).mapError fun message => s!"{path}: {message}" := by
    rw [loadTree, read]
  rw [runCommand_eq loaded rfl]
  cases parsed : parseTree text with
  | ok c =>
    rw [parsed] at loadedTree
    rw [perform_normalize loadedTree]
  | error message =>
    rw [parsed] at loadedTree
    simp only [perform, loadedTree]
    rfl

end

/-- How a run ends that refuses a file, in which a tree gets too deep at a place. -/
def refusing (path : String) (p : Position) : Outcome :=
  ⟨1, "", lines ["Error: " ++ Text.quoted s!"{path}: {refusal p}"]⟩

/-- **What was printed is read back**: a run of normalizing on what was printed of a tree prints its
normal form, if the tree has at most 64 levels, and otherwise reports where it gets too deep. -/
theorem runCommand_printed {s : Surroundings} {settings : Settings} {named : Option String}
    {path : String} (withoutPushDown : Bool) {c : Condition} (wf : WellFormed c)
    (loaded : loadSettings s named = .ok settings)
    (read : readText s path = .ok (lines [c.prettyJson])) :
    if c.depth ≤ 64 then
      runCommand s ⟨.normalize path withoutPushDown, named⟩ =
        ⟨0, lines [(printedForm settings withoutPushDown c).prettyJson], ""⟩
    else ∃ p, runCommand s ⟨.normalize path withoutPushDown, named⟩ = refusing path p := by
  have blank : Token.Blank ['\n'] := List.forall_mem_singleton.mpr rfl
  have parsed := parseTree_prettyJson_append wf blank
  rw [show String.ofList ['\n'] = "\n" from rfl] at parsed
  rw [runCommand_normalize loaded read, lines_singleton]
  by_cases shallow : c.depth ≤ 64
  · rw [if_pos shallow] at parsed ⊢
    rw [parsed]
  · rw [if_neg shallow] at parsed ⊢
    obtain ⟨p, refused⟩ := parsed
    exact ⟨p, by rw [refused]; rfl⟩

end CommandLine

end CallGuard
