import CallGuard.CommandLine.Program
import CallGuard.Proofs.Compared
import CallGuard.Proofs.Reading
import CallGuard.Proofs.Runs

/-!
# Trees are read back

A tree is printed as its draft, with its operands as hexadecimal text and without empty lists. Such
a draft is clean, and the checked constructor puts the tree together from it. So a tree that is
printed is read back, as long as it is not too deep: a level of a tree is an object in an array, and
arrays and objects may be nested 127 deep, which is enough for 64 levels and not for 65
(`parseTree_prettyJson_append`).
-/

namespace CallGuard

namespace Draft

/-! ### Drafts of trees -/

/-- The text of an operand in a draft; none is written of an empty operand. -/
def operandText (operand : Bytes) : Option String :=
  if operand.isEmpty then none else some (Hex.encode operand)

theorem ofCondition_eq (c : Condition) : ofCondition c =
    ⟨c.paramType, c.operator, operandText c.operand, nonempty (c.children.map ofCondition)⟩ :=
  Condition.fold_eq _ c

theorem nonempty_nil : nonempty [] = none :=
  rfl

theorem nonempty_of_ne_nil {ds : List Draft} (some : ds ≠ []) : nonempty ds = .some ds :=
  if_neg (by rwa [List.isEmpty_iff])

theorem ofCondition_leaf {c : Condition} (leaf : c.children = []) :
    ofCondition c = ⟨c.paramType, c.operator, operandText c.operand, none⟩ := by
  rw [ofCondition_eq, leaf, List.map_nil, nonempty_nil]

theorem ofCondition_branch {c : Condition} (some : c.children ≠ []) : ofCondition c =
    ⟨c.paramType, c.operator, operandText c.operand, .some (c.children.map ofCondition)⟩ := by
  rw [ofCondition_eq, nonempty_of_ne_nil (by rwa [ne_eq, List.map_eq_nil_iff])]

/-- The text of an operand does not stand for the empty operand. -/
theorem cleanOperand_operandText (operand : Bytes) :
    cleanOperand (operandText operand) = operandText operand := by
  cases operand with
  | nil => rfl
  | cons b bytes =>
    have long : isEmptyOperand (Hex.encode (b :: bytes)) = false := by
      have digits : Hex.digits (b :: bytes) ≠ [] := List.cons_ne_nil _ _
      simp [isEmptyOperand, Hex.encode, ← String.toList_inj, digits]
    have text : operandText (b :: bytes) = some (Hex.encode (b :: bytes)) := rfl
    rw [text, cleanOperand, Option.filter_some, long]
    rfl

theorem operand_operandText (bytes : Bytes) : operand (operandText bytes) = .ok bytes := by
  cases bytes with
  | nil => rfl
  | cons b bytes =>
    have text : operandText (b :: bytes) = some (Hex.encode (b :: bytes)) := rfl
    rw [text, operand, Hex.decode_encode]

/-- The draft of a tree is clean. -/
theorem clean_ofCondition (c : Condition) : (ofCondition c).clean = ofCondition c := by
  induction c using Condition.induct with
  | node c ih =>
    by_cases leaf : c.children = []
    · rw [ofCondition_leaf leaf, clean, cleanOperand_operandText]
    · have children : cleanAll (c.children.map ofCondition) = c.children.map ofCondition := by
        rw [cleanAll_eq_map, List.map_map]
        exact List.map_congr_left ih
      rw [ofCondition_branch leaf, clean, cleanOperand_operandText, children,
        nonempty_of_ne_nil (by rwa [ne_eq, List.map_eq_nil_iff])]

/-- A well-formed tree is put together from its draft. -/
theorem toCondition_ofCondition {c : Condition} (wf : c.WellFormed) :
    (ofCondition c).toCondition = .ok c := by
  induction c using Condition.induct with
  | node c ih =>
    have made : Condition.make c.paramType c.operator c.operand c.children = .ok c := wf.remade
    by_cases leaf : c.children = []
    · rw [leaf] at made
      rw [ofCondition_leaf leaf, toCondition, operand_operandText]
      exact made
    · have children : toConditions (c.children.map ofCondition) = .ok c.children := by
        have each := Condition.mapM_eq_pure (m := Except Error) (f := toCondition ∘ ofCondition)
          (g := fun d => d) fun d mem => ih d mem (wf.children d mem)
        rw [List.map_id'] at each
        rw [toConditions_eq_mapM, List.mapM_map, each]
        rfl
      rw [ofCondition_branch leaf, toCondition, operand_operandText, children]
      exact made

/-! ### Nesting -/

/-- Each level of a tree but the first is an object in an array. -/
theorem nesting_ofCondition (c : Condition) : (ofCondition c).nesting + 1 = 2 * c.depth := by
  induction c using Condition.induct with
  | node c ih =>
    rw [Condition.depth_eq]
    by_cases leaf : c.children = []
    · rw [ofCondition_leaf leaf, leaf]
      rfl
    · have deepest (cs : List Condition)
          (each : ∀ d ∈ cs, (ofCondition d).nesting + 1 = 2 * d.depth) (some : cs ≠ []) :
          nestingAll (cs.map ofCondition) + 1 = 2 * (cs.map Condition.depth).foldr max 0 := by
        induction cs with
        | nil => exact absurd rfl some
        | cons d cs ih' =>
          obtain ⟨here, later⟩ := List.forall_mem_cons.mp each
          rw [List.map_cons, List.map_cons, nestingAll, List.foldr_cons]
          cases cs with
          | nil =>
            rw [List.map_nil, List.map_nil, nestingAll, List.foldr_nil]
            omega
          | cons e cs =>
            have := ih' later (List.cons_ne_nil e cs)
            omega
      have := deepest c.children ih leaf
      rw [ofCondition_branch leaf, nesting]
      omega

/-! ### Different trees are printed differently -/

theorem tokens_inj {d e : Draft} (h : d.tokens = e.tokens) : d = e := by
  -- with a nesting that is allowed for both, both are read from the tokens
  have readD := readBack d d.tokens.length (max d.nesting e.nesting) [] (Nat.le_refl _)
  have readE := readBack e e.tokens.length (max d.nesting e.nesting) [] (Nat.le_refl _)
  have found := readE.fits (Nat.le_max_right _ _)
  rw [← h, readD.fits (Nat.le_max_left _ _)] at found
  exact (Prod.mk.inj (Except.ok.inj found)).1

theorem operandText_inj {v w : Bytes} (h : operandText v = operandText w) : v = w := by
  have read := congrArg operand h
  rw [operand_operandText, operand_operandText] at read
  exact Except.ok.inj read

theorem nonempty_inj {ds es : List Draft} (h : nonempty ds = nonempty es) : ds = es := by
  cases ds <;> cases es <;> simp_all [nonempty]

theorem map_ofCondition_inj {cs ds : List Condition}
    (each : ∀ c ∈ cs, ∀ d, ofCondition c = ofCondition d → c = d)
    (h : cs.map ofCondition = ds.map ofCondition) : cs = ds := by
  induction cs generalizing ds with
  | nil => exact (List.map_eq_nil_iff.mp h.symm).symm
  | cons c cs ih =>
    obtain ⟨here, later⟩ := List.forall_mem_cons.mp each
    obtain ⟨d, ds, rfl, first, rest⟩ := List.map_eq_cons_iff.mp h.symm
    rw [here d first.symm, ih later rest.symm]

theorem ofCondition_inj {c d : Condition} (h : ofCondition c = ofCondition d) : c = d := by
  induction c using Condition.induct generalizing d with
  | node c ih =>
    rw [ofCondition_eq, ofCondition_eq d, Draft.mk.injEq] at h
    obtain ⟨types, operators, operands, children⟩ := h
    have each := map_ofCondition_inj (fun c mem d same => ih c mem same) (nonempty_inj children)
    rw [← c.mk_eta, ← d.mk_eta, types, operators, operandText_inj operands, each]

end Draft

namespace Condition

open Json

/-- A tree is what its draft writes. -/
theorem ofDraft_ofCondition {c : Condition} (wf : WellFormed c) :
    ofDraft (Draft.ofCondition c) = .ok c := by
  rw [ofDraft, Draft.clean_ofCondition, Draft.toCondition_ofCondition wf]

theorem prettyJson_inj {c d : Condition} (h : c.prettyJson = d.prettyJson) : c = d := by
  have scanned (e : Condition) :
      Token.scan e.prettyJson.toList = (Draft.ofCondition e).tokens := by
    have found := Token.scan_indented (Draft.ofCondition e).delimited_tokens 0 Token.blank_nil
    rwa [List.append_nil, ← String.toList_ofList (l := Token.indented 0 _)] at found
  refine Draft.ofCondition_inj (Draft.tokens_inj ?_)
  rw [← scanned c, ← scanned d, h]

/-- What is printed of a tree is none of the words that stand for a result without a tree. -/
theorem prettyJson_starts (c : Condition) : ∃ rest, c.prettyJson.toList = '{' :: rest := by
  obtain ⟨rest, starts⟩ := (Draft.ofCondition c).tokens_starts
  rw [prettyJson, String.toList_ofList, starts]
  exact ⟨_, rfl⟩

end Condition

namespace CommandLine

open Json

/-- What is said of a text in which arrays and objects are nested too deep at a place. -/
def refusal (p : Position) : String :=
  s!"Serialization error: recursion limit exceeded at line {p.line} column {p.column}"

/-- **What is printed of a tree is read back**, also with blanks after it, if the tree has at most
64 levels; otherwise it is refused, and the place where it gets too deep is named. -/
theorem parseTree_prettyJson_append {c : Condition} (wf : c.WellFormed) {blanks : List Char}
    (blank : Token.Blank blanks) :
    if c.depth ≤ 64 then parseTree (c.prettyJson ++ String.ofList blanks) = .ok c
    else ∃ p, parseTree (c.prettyJson ++ String.ofList blanks) = .error (refusal p) := by
  have text : c.prettyJson ++ String.ofList blanks =
      String.ofList (Token.indented 0 (Draft.ofCondition c).tokens ++ blanks) := by
    rw [Condition.prettyJson, String.ofList_append]
  have nested := Draft.nesting_ofCondition c
  have fits : (Draft.ofCondition c).nesting ≤ Draft.maxNesting ↔ c.depth ≤ 64 := by
    rw [Draft.maxNesting]
    omega
  have parsed := Draft.parse_indented (Draft.ofCondition c) blank
  rw [parseTree, text]
  by_cases shallow : c.depth ≤ 64
  · rw [if_pos (fits.mpr shallow)] at parsed
    rw [if_pos shallow, parsed]
    dsimp only
    rw [Condition.ofDraft_ofCondition wf]
    rfl
  · rw [if_neg (fun h => shallow (fits.mp h))] at parsed
    obtain ⟨p, refused⟩ := parsed
    rw [if_neg shallow, refused]
    exact ⟨p, rfl⟩

/-- **Printing a tree loses nothing**: from what is printed of a well-formed tree with at most 63
levels below its root, exactly the tree is read back. -/
theorem parseTree_prettyJson {c : Condition} (wf : c.WellFormed) (shallow : c.depth ≤ 64) :
    parseTree c.prettyJson = .ok c := by
  have read := parseTree_prettyJson_append wf Token.blank_nil
  rwa [String.ofList_nil, String.append_empty, if_pos shallow] at read

theorem parseTree_prettyJson_sampleCall :
    Condition.sampleCall.WellFormed ∧ Condition.sampleCall.depth ≤ 64 ∧
      parseTree Condition.sampleCall.prettyJson = .ok Condition.sampleCall := by
  have wf : Condition.sampleCall.WellFormed := by decide +kernel
  have shallow : Condition.sampleCall.depth ≤ 64 := by decide +kernel
  exact ⟨wf, shallow, parseTree_prettyJson wf shallow⟩

end CommandLine

end CallGuard
