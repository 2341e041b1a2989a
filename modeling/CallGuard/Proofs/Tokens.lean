import CallGuard.Json.Token

/-!
# What is written as JSON is read back

Between its quotes a text is written so that reading it gives the text back, whatever characters it
holds (`scanString_encode`, `decode_codes`). Tokens other than numbers show where they end, so that
the tokens of a text that is made of them are found again, however the text is laid out in lines
(`scan_indented`). Blanks may follow the text.
-/

namespace CallGuard

namespace Json

/-! ### Texts between quotes -/

/-- The code points of the characters of a text. -/
def codes (text : List Char) : List Nat :=
  text.map Char.toNat

/-- A control character is written by the two last of its four digits. -/
theorem unitOfDigits?_control {n : Nat} (h : n < 0x20) :
    unitOfDigits? '0' '0' (Nat.digitChar (n / 16)) (Nat.digitChar (n % 16)) = some n := by
  have each : ∀ n : Fin 0x20,
      unitOfDigits? '0' '0' (Nat.digitChar (n / 16)) (Nat.digitChar (n % 16)) = some n.val := by
    decide
  exact each ⟨n, h⟩

/-- A character that needs no escape is read as itself. -/
theorem scanUnits_plain {c : Char} (quote : c ≠ '"') (mark : c ≠ '\\') (high : ¬ c.toNat < 0x20)
    (done : List Nat) (rest : List Char) :
    scanUnits done (c :: rest) = scanUnits (c.toNat :: done) rest := by
  rw [scanUnits, if_neg high]
  · exact quote
  · rintro a b c d rest' rfl
    exact absurd rfl mark
  · rintro c rest' rfl
    exact absurd rfl mark

/-- A character is read back as its code point. -/
theorem scanUnits_encodeChar (c : Char) (done : List Nat) (rest : List Char) :
    scanUnits done (encodeChar c ++ rest) = scanUnits (c.toNat :: done) rest := by
  unfold encodeChar
  -- the escapes of one letter come first; each of them stands for one character
  iterate 7
    split
    · next eq =>
      subst eq
      rfl
  split
  · next control =>
    simp only [List.cons_append, List.nil_append, scanUnits, unitOfDigits?_control control]
  · next quote mark _ _ _ _ _ high =>
    exact scanUnits_plain quote mark high done rest

/-- A text is read back up to the quote that ends it. -/
theorem scanUnits_encode (text : List Char) (done : List Nat) (rest : List Char) :
    scanUnits done (text.flatMap encodeChar ++ '"' :: rest) =
      some (done.reverse ++ codes text, rest) := by
  induction text generalizing done with
  | nil => simp [scanUnits, codes]
  | cons c text ih =>
    rw [List.flatMap_cons, List.append_assoc, scanUnits_encodeChar, ih]
    simp [codes]

theorem scanString_encode (text : String) (rest : List Char) :
    scanString (encode text ++ '"' :: rest) = some (codes text.toList, rest) :=
  scanUnits_encode text.toList [] rest

/-- No character has the code point of half a pair. -/
theorem not_surrogate (c : Char) :
    isHighSurrogate c.toNat = false ∧ isLowSurrogate c.toNat = false := by
  have valid : c.toNat < 0xd800 ∨ 0xdfff < c.toNat ∧ c.toNat < 0x110000 := c.valid
  simp only [isHighSurrogate, isLowSurrogate, Bool.and_eq_false_iff, decide_eq_false_iff_not]
  omega

theorem decodeUnits_codes (text done : List Char) :
    decodeUnits done (codes text) = some (done.reverse ++ text) := by
  induction text generalizing done with
  | nil => simp [codes, decodeUnits]
  | cons c text ih =>
    obtain ⟨high, low⟩ := not_surrogate c
    cases text with
    | nil => simp [codes, decodeUnits, high, low]
    | cons d text =>
      have rest := ih (c :: done)
      simp only [codes, List.map_cons] at rest ⊢
      rw [decodeUnits, high, low, Bool.false_and, if_neg Bool.false_ne_true, Bool.false_or,
        if_neg Bool.false_ne_true, Char.ofNat_toNat, rest]
      simp

/-- Code points of characters write the text of these characters. -/
theorem decode_codes (text : String) : decode (codes text.toList) = some text := by
  rw [decode, decodeUnits_codes]
  simp

namespace Token

/-! ### Single tokens -/

/-- A token whose text shows where it ends: any but a number, or a place where there is no token or
no text. -/
def Delimited : Token → Prop
  | .number _ | .string none | .invalid => False
  | _ => True

/-- What does not separate tokens starts a token. -/
theorem text_starts {t : Token} (h : t.Delimited) :
    ∃ c rest, t.text = c :: rest ∧ isSpace c = false := by
  cases t with
  | bool value => cases value <;> exact ⟨_, _, rfl, rfl⟩
  | number literal => exact h.elim
  | invalid => exact h.elim
  | _ => exact ⟨_, _, rfl, rfl⟩

/-- A token that shows where it ends is read back, whatever follows it. -/
theorem next_text {t : Token} (h : t.Delimited) (rest : List Char) :
    next (t.text ++ rest) = (t, rest) := by
  cases t with
  | bool value => cases value <;> rfl
  | number literal => exact h.elim
  | invalid => exact h.elim
  | string text =>
    cases text with
    | none => exact h.elim
    | some text =>
      have read := scanString_encode text rest
      simp only [Token.text, Option.getD_some, List.cons_append, List.append_assoc,
        List.nil_append, next, read, decode_codes]
  | _ => rfl

/-! ### Sequences of tokens -/

/-- Characters that only separate tokens. -/
def Blank (text : List Char) : Prop :=
  ∀ c ∈ text, isSpace c = true

theorem blank_nil : Blank [] :=
  List.forall_mem_nil _

theorem blank_newline (level : Nat) : Blank (newline level) := by
  intro c mem
  rcases List.mem_cons.mp mem with rfl | mem
  · rfl
  · rw [List.eq_of_mem_replicate mem]
    rfl

theorem Blank.append {before after : List Char} (b : Blank before) (a : Blank after) :
    Blank (before ++ after) :=
  List.forall_mem_append.mpr ⟨b, a⟩

/-- A text that is made of the texts of some tokens, with blanks around them. -/
inductive Written : List Token → List Char → Prop where
  /-- Blanks hold no tokens. -/
  | nil {blanks : List Char} (blank : Blank blanks) : Written [] blanks
  /-- Blanks and a token may stand in front. -/
  | cons {t : Token} {tokens : List Token} {blanks text : List Char} (blank : Blank blanks)
    (rest : Written tokens text) : Written (t :: tokens) (blanks ++ (t.text ++ text))

theorem Written.blank_append {tokens : List Token} {before text : List Char}
    (blank : Blank before) (h : Written tokens text) : Written tokens (before ++ text) := by
  cases h with
  | nil after => exact .nil (blank.append after)
  | cons after rest =>
    rw [← List.append_assoc]
    exact .cons (blank.append after) rest

/-- Laying tokens out in lines puts blanks between them; more blanks may follow. -/
theorem written_indented (level : Nat) (tokens : List Token) {blanks : List Char}
    (blank : Blank blanks) : Written tokens (indented level tokens ++ blanks) := by
  fun_induction indented level tokens with
  | case1 level => exact .nil blank
  | case2 level rest ih => exact .cons blank_nil (.cons blank_nil ih)
  | case3 level rest ih => exact .cons blank_nil (.cons blank_nil ih)
  | case4 level rest _ ih =>
    rw [List.cons_append, List.append_assoc]
    exact .cons blank_nil (ih.blank_append (blank_newline _))
  | case5 level rest _ ih =>
    rw [List.cons_append, List.append_assoc]
    exact .cons blank_nil (ih.blank_append (blank_newline _))
  | case6 level rest ih =>
    rw [List.append_assoc]
    exact .cons (blank_newline _) ih
  | case7 level rest ih =>
    rw [List.append_assoc]
    exact .cons (blank_newline _) ih
  | case8 level rest ih =>
    rw [List.cons_append, List.append_assoc]
    exact .cons blank_nil (ih.blank_append (blank_newline _))
  | case9 level rest ih =>
    have space : Blank [' '] := List.forall_mem_singleton.mpr rfl
    exact .cons blank_nil (ih.blank_append space)
  | case10 level token rest _ _ _ _ _ _ _ _ ih =>
    rw [List.append_assoc]
    exact .cons blank_nil ih

theorem dropWhile_blank {blanks : List Char} (blank : Blank blanks) (text : List Char) :
    (blanks ++ text).dropWhile isSpace = text.dropWhile isSpace := by
  induction blanks with
  | nil => rfl
  | cons c blanks ih =>
    obtain ⟨here, later⟩ := List.forall_mem_cons.mp blank
    rw [List.cons_append, List.dropWhile_cons_of_pos here, ih later]

/-- Where there are only blanks, no token is found. -/
theorem scanWithin_blank {blanks : List Char} (blank : Blank blanks) (done : List Token)
    (bound : Nat) : scanWithin done bound blanks = done.reverse := by
  cases bound with
  | zero => rfl
  | succ bound =>
    have none := dropWhile_blank blank []
    rw [List.append_nil, List.dropWhile_nil] at none
    rw [scanWithin, none]

/-- A token that shows where it ends is found after blanks, and reading goes on after it. -/
theorem scanWithin_text {t : Token} (h : t.Delimited) {blanks : List Char} (blank : Blank blanks)
    (done : List Token) (bound : Nat) (rest : List Char) :
    scanWithin done (bound + 1) (blanks ++ (t.text ++ rest)) =
      scanWithin (t :: done) bound rest := by
  obtain ⟨c, text, starts, solid⟩ := text_starts h
  have read := next_text h rest
  rw [starts, List.cons_append] at read ⊢
  rw [scanWithin, dropWhile_blank blank,
    List.dropWhile_cons_of_neg (by rw [solid]; exact Bool.false_ne_true)]
  simp only [read]

theorem Written.scanWithin {tokens : List Token} {text : List Char} (h : Written tokens text)
    (delimited : ∀ t ∈ tokens, t.Delimited) (done : List Token) {bound : Nat}
    (enough : tokens.length ≤ bound) : scanWithin done bound text = done.reverse ++ tokens := by
  induction h generalizing done bound with
  | nil blank => rw [scanWithin_blank blank, List.append_nil]
  | @cons t tokens blanks text blank rest ih =>
    obtain ⟨here, later⟩ := List.forall_mem_cons.mp delimited
    obtain ⟨bound, rfl⟩ := Nat.exists_eq_add_of_le' enough
    rw [List.length_cons, ← Nat.add_assoc, scanWithin_text here blank,
      ih later (t :: done) (Nat.le_add_left _ _), List.reverse_cons, List.append_assoc]
    rfl

/-- Each token takes at least one character. -/
theorem Written.length_le {tokens : List Token} {text : List Char} (h : Written tokens text)
    (delimited : ∀ t ∈ tokens, t.Delimited) : tokens.length ≤ text.length := by
  induction h with
  | nil blank => exact Nat.zero_le _
  | @cons t tokens blanks text blank rest ih =>
    obtain ⟨here, later⟩ := List.forall_mem_cons.mp delimited
    obtain ⟨c, rest', starts, -⟩ := text_starts here
    have := ih later
    simp only [starts, List.length_append, List.length_cons]
    omega

/-- **The tokens of a text are found again**, however they are laid out. -/
theorem scan_written {tokens : List Token} {text : List Char} (h : Written tokens text)
    (delimited : ∀ t ∈ tokens, t.Delimited) : scan text = tokens :=
  h.scanWithin delimited [] (h.length_le delimited)

/-- Tokens that are laid out in lines are found again, also if blanks follow. -/
theorem scan_indented {tokens : List Token} (delimited : ∀ t ∈ tokens, t.Delimited) (level : Nat)
    {blanks : List Char} (blank : Blank blanks) : scan (indented level tokens ++ blanks) = tokens :=
  scan_written (written_indented level tokens blank) delimited

end Token

end Json

end CallGuard
