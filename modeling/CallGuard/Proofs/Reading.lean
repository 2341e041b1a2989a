import CallGuard.Draft.Printer
import CallGuard.Draft.Reader
import CallGuard.Proofs.Results
import CallGuard.Proofs.Tokens

/-!
# Drafts are read back

What is written of a draft is read back as that draft, as long as arrays and objects are not nested
too deep, and is refused for that otherwise (`parse_indented`). Reading meets the fields of a node
in the order in which they are written; and the number of the tokens of a node bounds the steps that
it takes to read them, so that the bound on the steps is never reached.
-/

namespace CallGuard

namespace Draft

open Json

/-- Induction on drafts: what holds of drafts without children, and of a draft when it holds of its
children, holds of all. -/
theorem induct {motive : Draft → Prop}
    (leaf : ∀ p op v, motive ⟨p, op, v, none⟩)
    (node : ∀ p op v ds, (∀ d ∈ ds, motive d) → motive ⟨p, op, v, some ds⟩) (d : Draft) :
    motive d :=
  Draft.rec (motive_1 := motive) (motive_2 := fun ds? => ∀ ds ∈ ds?, ∀ d ∈ ds, motive d)
    (motive_3 := fun ds => ∀ d ∈ ds, motive d)
    (fun p op v ds? ih => match ds?, ih with
      | none, _ => leaf p op v
      | some ds, ih => node p op v ds (ih ds rfl))
    (fun _ h => absurd h (by simp))
    (fun ds ih ds' h => by cases h; exact ih)
    (fun _ h => absurd h List.not_mem_nil)
    (fun _ _ hd hds _ h => (List.mem_cons.mp h).elim (fun e => e ▸ hd) (hds _)) d

/-! ### Nesting -/

mutual

/-- How deep arrays and objects are nested in what is written of a draft. -/
def nesting : Draft → Nat
  | ⟨_, _, _, some children⟩ => nestingAll children + 2
  | ⟨_, _, _, none⟩ => 1

/-- The deepest nesting in what is written of some drafts. -/
def nestingAll : List Draft → Nat
  | [] => 0
  | d :: ds => max (nesting d) (nestingAll ds)

end

/-! ### What is written -/

/-- What is written of an operand. -/
def operandTokens : Option String → List Token
  | none => []
  | some text => [.comma, .string (some "compValue"), .colon, .string (some text)]

/-- What is written of a type and an operator, with the start of their node. -/
def headTokens (p : ParamType) (op : Operator) : List Token :=
  [.openBrace, .string (some "paramType"), .colon, .string (some p.name), .comma,
    .string (some "operator"), .colon, .string (some op.name)]

/-- What is written of children, up to the end of their array. -/
def childTokens (ds : List Draft) : List Token :=
  Token.separated (ds.map tokens) ++ [.closeBracket]

theorem tokens_leaf (p : ParamType) (op : Operator) (v : Option String) :
    tokens ⟨p, op, v, none⟩ = headTokens p op ++ (operandTokens v ++ [.closeBrace]) := by
  cases v <;> rfl

theorem tokens_node (p : ParamType) (op : Operator) (v : Option String) (ds : List Draft) :
    tokens ⟨p, op, v, some ds⟩ = headTokens p op ++ (operandTokens v ++
      .comma :: .string (some "children") :: .colon :: .openBracket ::
        (childTokens ds ++ [.closeBrace])) := by
  cases v <;>
    simp [tokens, tokensOfAll_eq_map, fields, headTokens, operandTokens, childTokens, Token.object,
      Token.array, Token.separated, List.intercalate]

/-- What is written of a draft starts an object with a key. -/
theorem tokens_starts (d : Draft) :
    ∃ rest, d.tokens = .openBrace :: .string (some "paramType") :: rest := by
  obtain ⟨p, op, v, _ | ds⟩ := d
  · exact ⟨_, tokens_leaf p op v⟩
  · exact ⟨_, tokens_node p op v ds⟩

theorem childTokens_nil : childTokens [] = [.closeBracket] :=
  rfl

theorem childTokens_singleton (d : Draft) : childTokens [d] = d.tokens ++ [.closeBracket] := by
  simp [childTokens, Token.separated, List.intercalate]

theorem childTokens_cons_cons (d e : Draft) (ds : List Draft) :
    childTokens (d :: e :: ds) = d.tokens ++ .comma :: childTokens (e :: ds) := by
  simp [childTokens, Token.separated, List.intercalate]

/-- What is written of some children starts an object. -/
theorem childTokens_starts (d : Draft) (ds : List Draft) :
    ∃ front, childTokens (d :: ds) = .openBrace :: front := by
  obtain ⟨front, starts⟩ := d.tokens_starts
  cases ds with
  | nil => exact ⟨_, by rw [childTokens_singleton, starts]; rfl⟩
  | cons e ds => exact ⟨_, by rw [childTokens_cons_cons, starts]; rfl⟩

/-- What is written of a draft shows where each of its tokens ends. -/
theorem delimited_tokens (d : Draft) : ∀ t ∈ d.tokens, t.Delimited := by
  have head (p : ParamType) (op : Operator) : ∀ t ∈ headTokens p op, t.Delimited := by
    simp [headTokens, Token.Delimited]
  have operand (v : Option String) : ∀ t ∈ operandTokens v, t.Delimited := by
    cases v <;> simp [operandTokens, Token.Delimited]
  induction d using induct with
  | leaf p op v =>
    rw [tokens_leaf]
    simp only [List.forall_mem_append]
    exact ⟨head p op, operand v, List.forall_mem_singleton.mpr trivial⟩
  | node p op v ds ih =>
    have children : ∀ t ∈ childTokens ds, t.Delimited := by
      induction ds with
      | nil => exact List.forall_mem_singleton.mpr trivial
      | cons d ds ih' =>
        obtain ⟨here, later⟩ := List.forall_mem_cons.mp ih
        cases ds with
        | nil =>
          rw [childTokens_singleton, List.forall_mem_append]
          exact ⟨here, List.forall_mem_singleton.mpr trivial⟩
        | cons e ds =>
          rw [childTokens_cons_cons, List.forall_mem_append, List.forall_mem_cons]
          exact ⟨here, trivial, ih' later⟩
    rw [tokens_node]
    simp only [List.forall_mem_append, List.forall_mem_cons]
    exact ⟨head p op, operand v, trivial, trivial, trivial, trivial, children, trivial,
      List.forall_mem_nil _⟩

/-! ### Reading the fields -/

theorem readParamType_name (p : ParamType) (level : Nat) (rest : List Token) :
    readParamType level (.string (some p.name) :: rest) = .ok (p, rest) := by
  rw [readParamType, readNamed, readName, named, ParamType.ofName?_name]
  rfl

theorem readOperator_name (op : Operator) (level : Nat) (rest : List Token) :
    readOperator level (.string (some op.name) :: rest) = .ok (op, rest) := by
  rw [readOperator, readNamed, readName, named, Operator.ofName?_name]
  rfl

/-- A node starts with its type and its operator. -/
theorem readNode_headTokens (p : ParamType) (op : Operator) (bound level : Nat)
    (rest : List Token) : readNode (bound + 4) (level + 1) (headTokens p op ++ rest) =
      readMore bound level { paramType := some p, operator := some op } rest := by
  have absent : (none : Option ParamType).isSome = false := rfl
  have absent' : (none : Option Operator).isSome = false := rfl
  simp only [headTokens, List.cons_append, List.nil_append, readNode, readField, readMore, absent,
    absent', Bool.false_eq_true, if_false, readColon, ok_bind, readParamType_name,
    readOperator_name]

/-- The operand comes next, unless there is none. -/
theorem readMore_operandTokens (p : ParamType) (op : Operator) (v : Option String)
    (bound level : Nat) (rest : List Token) :
    ∃ spare, bound ≤ spare ∧
      readMore (bound + (operandTokens v).length) level
          { paramType := some p, operator := some op } (operandTokens v ++ rest) =
        readMore spare level
          { paramType := some p, operator := some op, compValue := v.map some } rest := by
  cases v with
  | none => exact ⟨bound, Nat.le_refl _, rfl⟩
  | some text =>
    refine ⟨bound + 2, Nat.le_add_right _ _, ?_⟩
    rw [operandTokens, List.length_cons, List.cons_append, List.cons_append, List.cons_append,
      List.cons_append, List.nil_append]
    simp only [List.length_cons, List.length_nil, readMore, readField, readCompValue, readColon,
      ok_bind, Option.isSome_none, Bool.false_eq_true, if_false, Option.map_some]

/-- At the end of a node the draft is put together. -/
theorem readMore_closeBrace (p : ParamType) (op : Operator) (v : Option String)
    (ds? : Option (Option (List Draft))) (bound level : Nat) (rest : List Token) :
    readMore bound level
        { paramType := some p, operator := some op, compValue := v.map some, children := ds? }
        (.closeBrace :: rest) = .ok (⟨p, op, v, ds?.join⟩, rest) := by
  have operand : (v.map some).join = v := by cases v <;> rfl
  simp only [readMore, endNode, Fields.draft, operand]

/-- The children come last. -/
theorem readMore_children (p : ParamType) (op : Operator) (v : Option String)
    (bound level : Nat) (rest : List Token) :
    readMore (bound + 2) level
        { paramType := some p, operator := some op, compValue := v.map some }
        (.comma :: .string (some "children") :: .colon :: rest) =
      (readChildren bound level rest >>= fun (ds?, rest) =>
        readMore bound level
          { paramType := some p, operator := some op, compValue := v.map some,
            children := some ds? } rest) := by
  simp only [readMore, readField, readColon, ok_bind, Option.isSome_none, Bool.false_eq_true,
    if_false]

/-! ### Reading nodes -/

/-- Reading a value, of which the nesting is known, gives that value if the nesting is allowed, and
is given up for it otherwise. -/
structure ReadsTo {α : Type} (needed level : Nat) (value : α) (rest : List Token)
    (result : Except Stop (α × List Token)) : Prop where
  fits : needed ≤ level → result = .ok (value, rest)
  deep : level < needed → ∃ left, result = .error (.tooDeep left)

namespace ReadsTo

variable {α β : Type} {m n level : Nat} {a : α} {b : β} {rest rest' : List Token}
  {x : Except Stop (α × List Token)} {next : α × List Token → Except Stop (β × List Token)}

theorem of_eq (same : x = .ok (a, rest)) : ReadsTo 0 level a rest x :=
  ⟨fun _ => same, fun deep => absurd deep (Nat.not_lt_zero _)⟩

/-- Where no nesting is allowed, nothing nested is read. -/
theorem of_tooDeep {left : Nat} (refused : x = .error (.tooDeep left)) :
    ReadsTo (n + 1) 0 a rest x :=
  ⟨fun fits => absurd fits (Nat.not_succ_le_zero _), fun _ => ⟨left, refused⟩⟩

/-- An array or object around a value takes a level more. -/
theorem succ (h : ReadsTo n level a rest x) : ReadsTo (n + 1) (level + 1) a rest x :=
  ⟨fun fits => h.fits (Nat.le_of_succ_le_succ fits),
    fun deep => h.deep (Nat.lt_of_succ_lt_succ deep)⟩

/-- Of two values that are read one after the other, the one with the deeper nesting counts. -/
theorem bind (first : ReadsTo m level a rest x)
    (second : ReadsTo n level b rest' (next (a, rest))) :
    ReadsTo (max m n) level b rest' (x >>= next) := by
  constructor
  · intro fits
    obtain ⟨here, later⟩ := Nat.max_le.mp fits
    rw [first.fits here, ok_bind, second.fits later]
  · intro deep
    by_cases here : m ≤ level
    · rw [first.fits here, ok_bind]
      exact second.deep (by omega)
    · obtain ⟨left, refused⟩ := first.deep (Nat.lt_of_not_le here)
      exact ⟨left, by rw [refused, error_bind]⟩

/-- What is made of a value needs no more nesting. -/
theorem map (h : ReadsTo n level a rest x) (made : next (a, rest) = .ok (b, rest')) :
    ReadsTo n level b rest' (x >>= next) := by
  have both := h.bind (of_eq made)
  rwa [Nat.max_zero] at both

end ReadsTo

/-- A draft that is read back from its tokens, if its nesting is allowed. -/
def ReadBack (d : Draft) : Prop :=
  ∀ bound level rest, d.tokens.length ≤ bound →
    ReadsTo d.nesting level d rest (readNode bound level (d.tokens ++ rest))

/-- The elements of an array are read back if each of them is. -/
theorem readElements_childTokens {ds : List Draft} (some : ds ≠ []) (each : ∀ d ∈ ds, ReadBack d)
    {bound : Nat} (level : Nat) (rest : List Token) (enough : (childTokens ds).length ≤ bound) :
    ReadsTo (nestingAll ds) level ds rest (readElements bound level (childTokens ds ++ rest)) := by
  induction ds generalizing bound with
  | nil => exact absurd rfl some
  | cons d ds ih =>
    obtain ⟨here, later⟩ := List.forall_mem_cons.mp each
    cases ds with
    | nil =>
      rw [childTokens_singleton, List.length_append, List.length_singleton] at enough
      obtain ⟨bound, rfl⟩ := Nat.exists_eq_add_of_lt (Nat.lt_of_lt_of_le (Nat.succ_pos _) enough)
      have first := here bound level ([.closeBracket] ++ rest) (by omega)
      rw [Nat.zero_add, childTokens_singleton, List.append_assoc, readElements]
      exact first.bind (.of_eq rfl)
    | cons e ds =>
      rw [childTokens_cons_cons, List.length_append, List.length_cons] at enough
      obtain ⟨bound, rfl⟩ := Nat.exists_eq_add_of_lt (Nat.lt_of_lt_of_le (Nat.succ_pos _) enough)
      have fewer : (childTokens (e :: ds)).length ≤ bound := by omega
      have others := ih (List.cons_ne_nil e ds) later fewer
      have first := here bound level (.comma :: childTokens (e :: ds) ++ rest) (by omega)
      obtain ⟨front, starts⟩ := childTokens_starts e ds
      have goesOn : nextElement (.comma :: childTokens (e :: ds) ++ rest) =
          .ok (true, childTokens (e :: ds) ++ rest) := by
        rw [starts]
        rfl
      rw [Nat.zero_add, childTokens_cons_cons, List.append_assoc, readElements]
      refine first.bind ?_
      simp only [goesOn, ok_bind]
      exact others.map rfl

/-- Children are read back if each of them is. -/
theorem readChildren_childTokens {ds : List Draft} (each : ∀ d ∈ ds, ReadBack d) {bound : Nat}
    (level : Nat) (rest : List Token) (enough : (childTokens ds).length < bound) :
    ReadsTo (nestingAll ds + 1) level (some ds) rest
      (readChildren bound level (.openBracket :: (childTokens ds ++ rest))) := by
  obtain ⟨bound, rfl⟩ := Nat.exists_eq_add_of_lt (Nat.lt_of_le_of_lt (Nat.zero_le _) enough)
  cases level with
  | zero =>
    have refused : readChildren (0 + bound + 1) 0 (.openBracket :: (childTokens ds ++ rest)) =
        .error (.tooDeep ((childTokens ds ++ rest).length + 1)) := by
      cases ds <;> rw [readChildren]
    exact .of_tooDeep refused
  | succ level =>
    cases ds with
    | nil =>
      rw [childTokens_nil, List.cons_append, readChildren]
      exact ReadsTo.succ (.of_eq rfl)
    | cons d ds =>
      have fewer : (childTokens (d :: ds)).length ≤ bound := by omega
      have elements := readElements_childTokens (List.cons_ne_nil d ds) each level rest fewer
      obtain ⟨front, starts⟩ := childTokens_starts d ds
      have opened : readChildren (bound + 1) (level + 1)
          (.openBracket :: (childTokens (d :: ds) ++ rest)) =
            readElements bound level (childTokens (d :: ds) ++ rest) >>= fun read =>
              .ok (some read.1, read.2) := by
        rw [starts, List.cons_append, readChildren]
        · rintro tail ⟨⟩
        · rintro ⟨⟩
      rw [Nat.zero_add, opened]
      exact ReadsTo.succ (elements.map rfl)

/-- Where no nesting is allowed, no node is read. -/
theorem readNode_headTokens_zero (p : ParamType) (op : Operator) (bound : Nat)
    (rest : List Token) : readNode bound 0 (headTokens p op ++ rest) =
      .error (.tooDeep (headTokens p op ++ rest).length) := by
  rw [headTokens, List.cons_append, readNode]
  rfl

/-- **A draft is read back from its tokens**, whatever follows them, if its nesting is allowed, and
is refused otherwise. -/
theorem readBack (d : Draft) : ReadBack d := by
  induction d using induct with
  | leaf p op v =>
    intro bound level rest enough
    have length : (headTokens p op).length = 8 := rfl
    rw [tokens_leaf, List.length_append, List.length_append, length] at enough
    simp only [tokens_leaf, List.append_assoc, List.cons_append, List.nil_append, nesting]
    cases level with
    | zero => exact .of_tooDeep (readNode_headTokens_zero p op bound _)
    | succ level =>
      obtain ⟨spare, rfl⟩ := Nat.exists_eq_add_of_le' (n := bound)
        (m := (operandTokens v).length + 4) (by omega)
      obtain ⟨_, -, operand⟩ := readMore_operandTokens p op v spare level (.closeBrace :: rest)
      rw [← Nat.add_assoc, readNode_headTokens, operand, readMore_closeBrace]
      exact (ReadsTo.of_eq rfl).succ
  | node p op v ds ih =>
    intro bound level rest enough
    have length : (headTokens p op).length = 8 := rfl
    simp only [tokens_node, List.length_append, List.length_cons, length] at enough
    simp only [tokens_node, List.append_assoc, List.cons_append, List.nil_append, nesting]
    cases level with
    | zero => exact .of_tooDeep (readNode_headTokens_zero p op bound _)
    | succ level =>
      obtain ⟨spare, rfl⟩ := Nat.exists_eq_add_of_le' (n := bound)
        (m := (operandTokens v).length + 4) (by omega)
      obtain ⟨left, more, operand⟩ := readMore_operandTokens p op v spare level
        (.comma :: .string (some "children") :: .colon :: .openBracket ::
          (childTokens ds ++ .closeBrace :: rest))
      obtain ⟨last, rfl⟩ := Nat.exists_eq_add_of_le' (n := left) (m := 2) (by omega)
      rw [← Nat.add_assoc, readNode_headTokens, operand, readMore_children]
      have enough : (childTokens ds).length < last := by omega
      have children := readChildren_childTokens ih level (.closeBrace :: rest) enough
      exact (children.map (readMore_closeBrace p op v (some (some ds)) last level rest)).succ

/-! ### Texts -/

/-- **What is written of a draft is read back**, also with blanks after it, if arrays and objects
are not nested too deep; otherwise it is refused for that, at some place. -/
theorem parse_indented (d : Draft) {blanks : List Char} (blank : Token.Blank blanks) :
    if d.nesting ≤ maxNesting then
      parse (String.ofList (Token.indented 0 d.tokens ++ blanks)) = .ok d
    else ∃ p, parse (String.ofList (Token.indented 0 d.tokens ++ blanks)) =
      .error ⟨.malformed .tooDeep, some p⟩ := by
  have scanned : Token.scan (Token.indented 0 d.tokens ++ blanks) = d.tokens :=
    Token.scan_indented d.delimited_tokens 0 blank
  have read := readBack d (d.tokens.length + 1) maxNesting [] (Nat.le_succ _)
  rw [List.append_nil] at read
  rw [parse, String.toList_ofList, scanned, Draft.read]
  split
  · next fits =>
    rw [read.fits fits]
    rfl
  · next deep =>
    obtain ⟨left, refused⟩ := read.deep (Nat.lt_of_not_le deep)
    rw [refused]
    exact ⟨_, rfl⟩

end Draft

end CallGuard
