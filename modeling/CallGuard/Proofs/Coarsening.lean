import CallGuard.Proofs.Levels
import CallGuard.Proofs.Places

/-!
# Alternatives that are grouped before they are merged

If some of several alternatives are merged first and what becomes of them is merged with the others,
a hinge may be found that all alternatives together do not have, or another one. `Grouped` relates
the branches that are left to compare then to those of all alternatives. If both are merged into the
same tree nevertheless, they are alike (`Grouped.alike`): along the steps in which all alternatives
are merged, the grouped ones are merged in the same steps.
-/

namespace CallGuard

namespace Condition

/-- Alternatives `us` that are others, `vs`, but for those of a group, `xs`, for which there is what
the group becomes. -/
structure Grouped (xs rest us vs : List Condition) : Prop where
  group : Joinable xs
  whole : Joinable us
  flat : Joinable vs
  /-- There are alternatives that are not in the group. -/
  others : rest ≠ []
  mem_flat : ∀ c, c ∈ alternatives vs ↔ c ∈ alternatives xs ∨ c ∈ rest
  mem_whole : ∀ c, c ∈ alternatives us ↔ c ∈ spliced .or (merged xs) ∨ c ∈ rest

/-! ### The ways to merge -/

/-- Alternatives are left side by side, or they are one match or conjunctions around values. -/
theorem Joinable.cases {vs : List Condition} (h : Joinable vs) :
    LeftApart vs ∨ Mergeable vs ∧
      ((∃ (f : Frame) (us : List Condition), OneMatch (alternatives vs) f us) ∨
        ∃ (type : ParamType) (shared : List Condition) (parts : List (Frame × Condition)),
          OneAnd (alternatives vs) type shared parts) := by
  cases h with
  | one normal untyped free other =>
    refine .inl ⟨fun c => ?_⟩
    rw [merged_singleton normal untyped, alternatives_singleton_of_ne_or other,
      spliced_of_ne other]
  | several m untyped =>
    rcases m.cases with apart | split
    · exact .inl (m.leftApart apart)
    · exact .inr ⟨m, split⟩

/-- Several alternatives that are left side by side become an alternation. -/
theorem LeftApart.operator_eq {vs : List Condition} (h : LeftApart vs)
    (many : 2 ≤ (alternatives vs).length) : (merged vs).operator = .or := by
  by_contra other
  obtain ⟨c, mem, differ⟩ := exists_mem_ne (nodup_alternatives vs) many (merged vs)
  rw [← h.mem_iff, spliced_of_ne other, List.mem_singleton] at mem
  exact differ mem

section OneAnd

variable {vs shared : List Condition} {type : ParamType} {parts : List (Frame × Condition)}

/-- What conjunctions become has fewer levels than any of them if it is no conjunction itself. -/
theorem OneAnd.depth_merged_lt (split : OneAnd (alternatives vs) type shared parts)
    (h : Joinable vs) (other : (merged vs).operator ≠ .and) {c : Condition}
    (mem : c ∈ alternatives vs) : (merged vs).depth < c.depth := by
  obtain ⟨p, memP, rfl⟩ := split.exists_part mem
  have eq := (split.joinable_values h).2.2
  rw [eq, rejoined] at other ⊢
  split at other
  · rename_i absorbed
    rw [if_pos absorbed]
    split at other
    · rename_i only
      rw [if_pos only]
      exact depth_lt_of_mem ((split.sharing p memP).mem_children_iff.mpr (.inr absorbed))
    · exact absurd rfl other
  · exact absurd rfl other

/-- Conjunctions that become no conjunction are not left side by side. -/
theorem OneAnd.not_mem_spliced (split : OneAnd (alternatives vs) type shared parts)
    (h : Joinable vs) (other : (merged vs).operator ≠ .and) {c : Condition}
    (mem : c ∈ alternatives vs) : c ∉ spliced .or (merged vs) := by
  intro inside
  have lower := split.depth_merged_lt h other mem
  rw [spliced] at inside
  split at inside
  · exact absurd (depth_lt_of_mem inside) (by omega)
  · rw [List.mem_singleton.mp inside] at lower
    omega

end OneAnd

namespace Grouped

variable {xs rest us vs : List Condition}

/-- A group that is left side by side makes no difference. -/
theorem alike_of_apart (h : Grouped xs rest us vs) (apart : LeftApart xs) :
    MergedAlike (alternatives us) (alternatives vs) := by
  refine .same fun c => ?_
  rw [h.mem_whole, h.mem_flat, apart.mem_iff]

theorem subset_flat (h : Grouped xs rest us vs) : alternatives xs ⊆ alternatives vs := fun c mem =>
  (h.mem_flat c).mpr (.inl mem)

/-- An alternative that is not in the group is compared either way. -/
theorem exists_common (h : Grouped xs rest us vs) :
    ∃ c ∈ rest, c ∈ alternatives us ∧ c ∈ alternatives vs := by
  obtain ⟨c, mem⟩ := List.exists_mem_of_ne_nil rest h.others
  exact ⟨c, mem, (h.mem_whole c).mpr (.inr mem), (h.mem_flat c).mpr (.inr mem)⟩

/-- **Values are grouped as the branches are**, if `value` says which value a branch has, and what
the group becomes has the value that the group's values become. -/
theorem values (h : Grouped xs rest us vs) (value : Condition → Condition → Prop)
    {xvals restVals uvals vvals : List Condition} (joinX : Joinable xvals) (joinU : Joinable uvals)
    (joinV : Joinable vvals) (only : spliced .or (merged xs) = [merged xs])
    (mem_xvals : ∀ v, v ∈ xvals ↔ ∃ c ∈ alternatives xs, value c v)
    (mem_restVals : ∀ v, v ∈ restVals ↔ ∃ c ∈ rest, value c v)
    (mem_uvals : ∀ v, v ∈ uvals ↔ ∃ c ∈ alternatives us, value c v)
    (mem_vvals : ∀ v, v ∈ vvals ↔ ∃ c ∈ alternatives vs, value c v)
    (value_merged : ∀ v, value (merged xs) v ↔ v = merged xvals)
    (others : ∃ c ∈ rest, ∃ v, value c v) :
    Grouped xvals (restVals.flatMap (spliced .or)) uvals vvals := by
  have flat (v : Condition) : v ∈ vvals ↔ v ∈ xvals ∨ v ∈ restVals := by
    rw [mem_vvals, mem_xvals, mem_restVals, ← exists_or]
    simp only [h.mem_flat, or_and_right]
  have whole (v : Condition) : v ∈ uvals ↔ v = merged xvals ∨ v ∈ restVals := by
    rw [mem_uvals, mem_restVals, ← value_merged]
    simp only [h.mem_whole, only, List.mem_singleton, or_and_right, exists_or, exists_eq_left]
  refine ⟨joinX, joinU, joinV, ?_, fun c => ?_, fun c => ?_⟩
  · obtain ⟨c, memC, v, found⟩ := others
    have memV := (mem_restVals v).mpr ⟨c, memC, found⟩
    have normal := joinV.normal v ((flat v).mpr (.inr memV))
    obtain ⟨d, inside⟩ := normal.wellFormed.exists_branch
    exact List.ne_nil_of_mem (List.mem_flatMap.mpr ⟨v, memV, inside⟩)
  · rw [joinV.mem_alternatives, joinX.mem_alternatives, List.mem_flatMap, ← exists_or]
    simp only [flat, or_and_right]
  · rw [joinU.mem_alternatives, List.mem_flatMap]
    simp only [whole, or_and_right, exists_or, exists_eq_left]

end Grouped

/-- Alternatives that share a branch, and of which one list is left side by side as an alternation,
are the same if they become the same. -/
theorem Joinable.alike_of_apart {us vs : List Condition} (hu : Joinable us) {c : Condition}
    (memU : c ∈ alternatives us) (memV : c ∈ alternatives vs)
    (apart : LeftApart vs) (or : (merged vs).operator = .or) (same : merged us = merged vs) :
    MergedAlike (alternatives us) (alternatives vs) := by
  rcases hu.cases with apartU | ⟨m, ⟨f, ws, split⟩ | ⟨type, shared, parts, split⟩⟩
  · refine .same fun d => ?_
    rw [← apart.mem_iff, ← apartU.mem_iff, same]
  · have op := split.merged_operator m
    rw [same, or] at op
    cases op
  · refine absurd ((apart.mem_iff c).mpr memV) (same ▸ split.not_mem_spliced hu ?_ memU)
    rw [same, or]
    exact nofun

/-- A free leaf is left side by side with the other alternatives. -/
theorem Joinable.apart_of_pass {vs : List Condition} (h : Joinable vs) {type : ParamType}
    (mem : pass type ∈ alternatives vs) : LeftApart vs := by
  rcases h.cases with apart | ⟨-, ⟨f, us, split⟩ | ⟨_, shared, parts, split⟩⟩
  · exact apart
  · exact nomatch (split.kind mem).2
  · exact nomatch split.operator_eq mem

/-! ### Matches -/

namespace OneMatch

variable {cs vs us : List Condition} {f : Frame}

/-- If all matches have a component in the place, these are the values. -/
theorem mem_values_iff (h : OneMatch cs f us) (wide : ∀ c ∈ cs, c.positional[f.place]? ≠ none)
    {u : Condition} : u ∈ us ↔ ∃ c ∈ cs, c.positional[f.place]? = some u := by
  constructor
  · intro mem
    obtain ⟨c, memC, own | ⟨none, -⟩⟩ := h.exists_of_value mem
    · exact ⟨c, memC, own⟩
    · exact absurd none (wide c memC)
  · rintro ⟨c, memC, own⟩
    exact h.mem_values memC own

/-- What the values become stands in their place. -/
theorem getElem?_merged (h : OneMatch (alternatives vs) f us) (m : Mergeable vs) :
    (merged vs).positional[f.place]? = some (merged us) := by
  obtain ⟨values, -⟩ := h.values m
  rw [h.merged_eq m]
  exact getElem?_prune (getElem?_fill_place f values.isGlobalAllowance_eq_false) values.not_isPass

/-- In other places, what the matches become has what all of them have. -/
theorem getElem?_merged_other (h : OneMatch (alternatives vs) f us) (m : Mergeable vs)
    {c a : Condition} {n : Nat} (mem : c ∈ alternatives vs) (other : n ≠ f.place)
    (found : c.positional[n]? = some a) (bound : ¬ a.isPass) :
    (merged vs).positional[n]? = some a := by
  obtain ⟨values, -⟩ := h.values m
  obtain ⟨model, -, -, fills, -⟩ := h.exists_model (List.ne_nil_of_mem mem)
  obtain ⟨u, memU, eq⟩ := fills c mem
  rw [h.merged_eq m]
  refine getElem?_prune ?_ bound
  rw [getElem?_fill_other f values.isGlobalAllowance_eq_false (h.own u memU) other, ← eq]
  exact getElem?_padTo found

end OneMatch

namespace Grouped

variable {xs rest us vs xvals ws : List Condition} {f g : Frame}

/-- **Grouped matches have their values in the same place**: otherwise, what stands there would be
the same in all of them. -/
theorem place_eq (h : Grouped xs rest us vs) (same : merged us = merged vs) (mx : Mergeable xs)
    (splitX : OneMatch (alternatives xs) f xvals) (mv : Mergeable vs)
    (splitV : OneMatch (alternatives vs) g ws) (mu : Mergeable us) {e : Frame}
    {vals : List Condition} (splitU : OneMatch (alternatives us) e vals) : e.place = g.place := by
  by_contra other
  obtain ⟨valuesU, -⟩ := splitU.values mu
  obtain ⟨valuesV, -⟩ := splitV.values mv
  have bound := valuesU.not_isPass
  have found : (g.fill (merged ws)).positional[e.place]? = some (merged vals) := by
    refine getElem?_of_prune ?_
    rw [← splitV.merged_eq mv, ← same]
    exact splitU.getElem?_merged mu
  have flat : ∀ c ∈ alternatives vs, c.positional[e.place]? = some (merged vals) := fun c mem =>
    splitV.getElem?_other mem valuesV.isGlobalAllowance_eq_false other found bound
  have whole : ∀ c ∈ alternatives us, c.positional[e.place]? = some (merged vals) := by
    intro c mem
    rcases (h.mem_whole c).mp mem with inside | memRest
    · rw [splitX.spliced_merged mx, List.mem_singleton] at inside
      subst inside
      obtain ⟨x, memX⟩ := List.exists_mem_of_ne_nil _ mx.alternatives_ne_nil
      refine splitX.getElem?_merged_other mx memX ?_ (flat x (h.subset_flat memX)) bound
      rwa [splitX.place_eq splitV h.subset_flat mx.many]
    · exact flat c ((h.mem_flat c).mpr (.inr memRest))
  obtain ⟨v, memV, differ⟩ :=
    exists_mem_ne splitU.different (splitU.length_eq ▸ mu.many) (merged vals)
  obtain ⟨c, memC, own | ⟨none, -⟩⟩ := splitU.exists_of_value memV
  · exact differ (Option.some.inj (own.symm.trans (whole c memC)))
  · exact nomatch none.symm.trans (whole c memC)

/-- Grouped matches that become the same as all of them are one match around values that become the
same. -/
theorem exists_oneMatch (h : Grouped xs rest us vs) (same : merged us = merged vs)
    (mx : Mergeable xs) (splitX : OneMatch (alternatives xs) f xvals) (mv : Mergeable vs)
    (splitV : OneMatch (alternatives vs) g ws) : ∃ (e : Frame) (vals : List Condition),
      OneMatch (alternatives us) e vals ∧ e.place = g.place ∧ merged vals = merged ws := by
  obtain ⟨valuesV, -⟩ := splitV.values mv
  have here : (merged us).positional[g.place]? = some (merged ws) :=
    same ▸ splitV.getElem?_merged mv
  have op : (merged us).operator = .matches := same ▸ splitV.merged_operator mv
  obtain ⟨c, -, memU, memV⟩ := h.exists_common
  rcases h.whole.cases with apart | ⟨mu, ⟨e, vals, splitU⟩ | ⟨type, shared, parts, splitU⟩⟩
  · -- one match is left, and it is that match itself around a value
    have normal : Normal (merged us) := same ▸ mv.normal_merged
    have bare := normal.wellFormed.operand_eq_nil
      (normal.wellFormed.children_ne_nil (by rw [op]; rfl))
    obtain ⟨e, fills, place⟩ := exists_fill_of_getElem? bare here
    have only : alternatives us = [merged us] := by
      refine List.perm_singleton.mp ((List.perm_ext_iff_of_nodup (nodup_alternatives us)
        (List.nodup_singleton _)).mpr fun d => ?_)
      rw [← apart.mem_iff, spliced_of_ne (by rw [op]; exact nofun)]
    have untyped := h.whole.untyped_alternative (only ▸ List.mem_singleton_self _)
    have inside : merged ws ∈ (merged us).children := by
      rw [← fills]
      exact Frame.mem_fill_children.mpr (.inl rfl)
    refine ⟨e, [merged ws], ⟨?_, ?_, ?_, List.nodup_singleton _,
      List.forall_mem_singleton.mpr valuesV.isGlobalAllowance_eq_false⟩, place,
      merged_singleton valuesV.normal_merged (untyped.children _ inside)⟩
    · exact (congrArg Condition.operator fills).trans op
    · have type : (merged us).paramType = g.paramType := by
        rw [same, splitV.merged_eq mv, prune_paramType]
        rfl
      rw [show e.paramType = _ from (congrArg Condition.paramType fills).trans type]
      exact splitV.array
    · rw [only, padded_eq_self (List.forall_mem_singleton.mpr rfl), List.map_singleton, fills]
  · have place := h.place_eq same mx splitX mv splitV mu splitU
    have there := splitU.getElem?_merged mu
    rw [place, here] at there
    exact ⟨e, vals, splitU, place, (Option.some.inj there).symm⟩
  · exact nomatch (splitU.operator_eq memU).symm.trans (splitV.kind memV).2

/-- If no match has to be padded to have a value, the values are grouped as the matches are. -/
theorem values_of_oneMatch (h : Grouped xs rest us vs) (mx : Mergeable xs)
    (splitX : OneMatch (alternatives xs) f xvals) (splitV : OneMatch (alternatives vs) g ws)
    {e : Frame} {vals : List Condition} (splitU : OneMatch (alternatives us) e vals)
    (place : e.place = g.place)
    (wide : ∀ c ∈ alternatives vs, c.positional[g.place]? ≠ none) :
    Grouped xvals ((rest.filterMap fun c => c.positional[g.place]?).flatMap (spliced .or))
      vals ws := by
  have placeX := splitX.place_eq splitV h.subset_flat mx.many
  have here : (merged xs).positional[g.place]? = some (merged xvals) :=
    placeX ▸ splitX.getElem?_merged mx
  have only := splitX.spliced_merged mx
  have wideX : ∀ c ∈ alternatives xs, c.positional[f.place]? ≠ none := fun c mem =>
    placeX ▸ wide c (h.subset_flat mem)
  have wideU : ∀ c ∈ alternatives us, c.positional[e.place]? ≠ none := by
    intro c mem
    rw [place]
    rcases (h.mem_whole c).mp mem with inside | memRest
    · rw [only, List.mem_singleton] at inside
      rw [inside, here]
      exact nofun
    · exact wide c ((h.mem_flat c).mpr (.inr memRest))
  refine h.values (fun c v => c.positional[g.place]? = some v)
    (splitX.joinable_values h.group).1 (splitU.joinable_values h.whole).1
    (splitV.joinable_values h.flat).1 only (fun v => ?_) (fun v => List.mem_filterMap) (fun v => ?_)
    (fun v => splitV.mem_values_iff wide) (fun v => ?_) ?_
  · rw [splitX.mem_values_iff wideX, placeX]
  · rw [splitU.mem_values_iff wideU, place]
  · rw [here, Option.some_inj, eq_comm]
  · obtain ⟨c, memC, -, memV⟩ := h.exists_common
    exact ⟨c, memC, Option.ne_none_iff_exists'.mp (wide c memV)⟩

/-- If a match has to be padded to have a value, the values are left side by side, and they are the
same ones. -/
theorem alike_values_of_narrow (h : Grouped xs rest us vs) (mv : Mergeable vs)
    (splitV : OneMatch (alternatives vs) g ws) {e : Frame} {vals : List Condition}
    (splitU : OneMatch (alternatives us) e vals) (place : e.place = g.place)
    (same : merged vals = merged ws) {d : Condition} (memD : d ∈ alternatives vs)
    (narrow : d.positional[g.place]? = none) :
    MergedAlike (alternatives vals) (alternatives ws) := by
  have joinU := (splitU.joinable_values h.whole).1
  have joinV := (splitV.joinable_values h.flat).1
  have leaf {us : List Condition} (join : Joinable us) {type : ParamType} (mem : pass type ∈ us) :
      pass type ∈ alternatives us :=
    join.mem_alternatives.mpr ⟨_, mem, List.mem_singleton_self _⟩
  obtain ⟨w, memW, own | ⟨-, type, rfl⟩⟩ := splitV.exists_value memD
  · exact nomatch narrow.symm.trans own
  have apart := joinV.apart_of_pass (leaf joinV memW)
  obtain ⟨c, -, memU, memV⟩ := h.exists_common
  obtain ⟨v, memVal, own | ⟨-, type', rfl⟩⟩ := splitU.exists_value memU
  · -- the value of the match that is compared either way is compared either way too
    have memWs : v ∈ ws := splitV.mem_values memV (place ▸ own)
    obtain ⟨x, inside⟩ := (joinV.normal v memWs).wellFormed.exists_branch
    have or := apart.operator_eq (splitV.values mv).1.many
    exact joinU.alike_of_apart (joinU.mem_alternatives.mpr ⟨v, memVal, inside⟩)
      (joinV.mem_alternatives.mpr ⟨v, memWs, inside⟩) apart or same
  · refine .same fun x => ?_
    rw [← (joinU.apart_of_pass (leaf joinU memVal)).mem_iff, ← apart.mem_iff, same]

/-- **Grouped matches** that become the same as all of them are alike, if values are that do. -/
theorem alike_of_oneMatch (h : Grouped xs rest us vs) (same : merged us = merged vs)
    (mx : Mergeable xs) (splitX : OneMatch (alternatives xs) f xvals) (mv : Mergeable vs)
    (splitV : OneMatch (alternatives vs) g ws)
    (below : ∀ xs rest us, Grouped xs rest us ws → merged us = merged ws →
      MergedAlike (alternatives us) (alternatives ws)) :
    MergedAlike (alternatives us) (alternatives vs) := by
  obtain ⟨e, vals, splitU, place, sameValues⟩ := h.exists_oneMatch same mx splitX mv splitV
  refine .framed e g splitU splitV ?_ ?_
  · rw [← (splitU.joinable_values h.whole).2.2, same, (splitV.joinable_values h.flat).2.2,
      sameValues]
  by_cases wide : ∀ c ∈ alternatives vs, c.positional[g.place]? ≠ none
  · exact below _ _ _ (h.values_of_oneMatch mx splitX splitV splitU place wide) sameValues
  · push Not at wide
    obtain ⟨d, memD, narrow⟩ := wide
    exact h.alike_values_of_narrow mv splitV splitU place sameValues memD narrow

end Grouped

/-! ### Conjunctions -/

theorem eq_of_cons_perm_cons {α : Type} {x y : α} {xs : List α} (h : (x :: xs).Perm (y :: xs)) :
    x = y := by
  have alone : [x].Perm [y] := (List.perm_append_right_iff xs).mp h
  exact List.singleton_inj.mp (List.perm_singleton.mp alone)

/-- What becomes of a value can be told from what becomes of the conjunctions around it, unless it
is shared. -/
theorem eq_or_mem_of_rejoined {type : ParamType} {shared : List Condition} {v w : Condition}
    (same : rejoined type shared v = rejoined type shared w) :
    v = w ∨ v ∈ shared ∧ w ∈ shared := by
  have mixed {v w : Condition} (mem : v ∈ shared) (new : w ∉ shared) :
      rejoined type shared v ≠ rejoined type shared w := by
    intro same
    have perm := sorted_perm (w :: shared)
    rw [rejoined, if_pos mem, rejoined_of_not_mem new] at same
    split at same
    · have inside : v ∈ (⟨type, .and, [], sorted (w :: shared)⟩ : Condition).children :=
        perm.mem_iff.mpr (List.mem_cons_of_mem w mem)
      rw [← same] at inside
      exact absurd (depth_lt_of_mem inside) (lt_irrefl _)
    · have lengths := congrArg (fun c => c.children.length) same
      simp only [perm.length_eq, (sorted_perm shared).length_eq, List.length_cons] at lengths
      omega
  by_cases mem : v ∈ shared
  · by_cases mem' : w ∈ shared
    · exact .inr ⟨mem, mem'⟩
    · exact absurd same (mixed mem mem')
  · by_cases mem' : w ∈ shared
    · exact absurd same.symm (mixed mem' mem)
    · rw [rejoined_of_not_mem mem, rejoined_of_not_mem mem'] at same
      have children : sorted (v :: shared) = sorted (w :: shared) :=
        congrArg Condition.children same
      have perm := (sorted_perm (v :: shared)).symm.trans (children ▸ sorted_perm (w :: shared))
      exact .inl (eq_of_cons_perm_cons perm)

namespace OneAnd

variable {cs shared : List Condition} {type : ParamType} {parts : List (Frame × Condition)}

theorem exists_children_perm (h : OneAnd cs type shared parts) {c : Condition} (mem : c ∈ cs) :
    ∃ v ∈ parts.map Prod.snd, c.children.Perm (v :: shared) := by
  obtain ⟨p, memP, rfl⟩ := h.exists_part mem
  exact ⟨p.2, List.mem_map_of_mem memP, (h.sharing p memP).children_perm p.2⟩

/-- The values of conjunctions are what they have besides the shared conditions. -/
theorem mem_values_iff (h : OneAnd cs type shared parts) {v : Condition} :
    v ∈ parts.map Prod.snd ↔ ∃ c ∈ cs, c.children.Perm (v :: shared) := by
  constructor
  · intro mem
    obtain ⟨p, memP, rfl⟩ := List.mem_map.mp mem
    exact ⟨filled p, h.mem_filled memP, (h.sharing p memP).children_perm p.2⟩
  · rintro ⟨c, memC, perm⟩
    obtain ⟨w, memW, perm'⟩ := h.exists_children_perm memC
    exact eq_of_cons_perm_cons (perm'.symm.trans perm) ▸ memW

end OneAnd

namespace Grouped

variable {xs rest us vs shared : List Condition} {type : ParamType}
  {inner parts : List (Frame × Condition)}

/-- What a group of conjunctions becomes is one of the grouped alternatives, and a conjunction of as
many conditions as they are. -/
theorem merged_mem_of_oneAnd (h : Grouped xs rest us vs) (same : merged us = merged vs)
    (mx : Mergeable xs) (splitV : OneAnd (alternatives vs) type shared parts) :
    merged xs ∈ alternatives us ∧ (merged xs).operator = .and ∧
      (merged xs).children.length = shared.length + 1 := by
  obtain ⟨c, -, memU, memV⟩ := h.exists_common
  have opC := splitV.operator_eq memV
  obtain ⟨w, -, permC⟩ := splitV.exists_children_perm memV
  have size : c.children.length = shared.length + 1 := by rw [permC.length_eq, List.length_cons]
  have normal := mx.normal_merged
  have member (other : (merged xs).operator ≠ .or) : merged xs ∈ alternatives us := by
    rw [h.mem_whole, spliced_of_ne other]
    exact .inl (List.mem_singleton_self _)
  have branches (or : (merged xs).operator = .or) : (merged xs).children ⊆ alternatives us := by
    intro d mem
    rw [h.mem_whole, spliced_of_eq or]
    exact .inl mem
  rcases h.whole.cases with apart | ⟨mu, ⟨f, vals, splitU⟩ | ⟨type', shared', parts', splitU⟩⟩
  · -- the only grouped alternative is the conjunction that is compared either way
    have and : (merged us).operator = .and := by
      by_contra other
      refine splitV.not_mem_spliced h.flat (same ▸ other) memV ?_
      rw [← same, apart.mem_iff]
      exact memU
    have only {d : Condition} (mem : d ∈ alternatives us) : d = c := by
      have each {d : Condition} (mem : d ∈ alternatives us) : d = merged us := by
        rwa [← apart.mem_iff, spliced_of_ne (by rw [and]; exact nofun),
          List.mem_singleton] at mem
      rw [each mem, each memU]
    have other : (merged xs).operator ≠ .or := by
      intro or
      have group : (merged xs).operator.isSetLike := by rw [or]; rfl
      obtain ⟨d, mem, differ⟩ := exists_mem_ne (nodup_of_nodup_ids (normal.tidy.distinct group))
        (normal.tidy.many (by rw [or]; rfl)) c
      exact differ (only (branches or mem))
    rw [only (member other)]
    exact ⟨memU, opC, size⟩
  · exact nomatch (splitU.kind memU).2.symm.trans opC
  · have other : (merged xs).operator ≠ .or := fun or =>
      splitU.not_children_subset mu normal or (branches or)
    have mem := member other
    obtain ⟨v, -, perm⟩ := splitU.exists_children_perm mem
    obtain ⟨v', -, perm'⟩ := splitU.exists_children_perm memU
    refine ⟨mem, splitU.operator_eq mem, ?_⟩
    rw [← size, perm.length_eq, perm'.length_eq]
    rfl

/-- What becomes of the group's values is not shared. -/
theorem merged_not_mem_shared (h : Grouped xs rest us vs) (same : merged us = merged vs)
    (mx : Mergeable xs) (splitX : OneAnd (alternatives xs) type shared inner)
    (splitV : OneAnd (alternatives vs) type shared parts) :
    merged (inner.map Prod.snd) ∉ shared := by
  intro absorbed
  obtain ⟨-, and, size⟩ := h.merged_mem_of_oneAnd same mx splitV
  rw [(splitX.joinable_values h.group).2.2, rejoined, if_pos absorbed] at and size
  split at size
  · -- the shared conditions are no conjunctions
    rename_i only
    rw [if_pos only] at and
    obtain ⟨c, -, -, memV⟩ := h.exists_common
    obtain ⟨p, memP, rfl⟩ := splitV.exists_part memV
    have conjoinable :=
      (splitV.sharing p memP).conjoinable (h.flat.normal_alternative memV).1
    exact conjoinable.flat _ (List.mem_cons_of_mem p.2 absorbed) and
  · rw [(sorted_perm shared).length_eq] at size
    omega

/-- **Grouped conjunctions** that become the same as all of them are alike, if values are that
do. -/
theorem alike_of_oneAnd (h : Grouped xs rest us vs) (same : merged us = merged vs)
    (mx : Mergeable xs) (splitV : OneAnd (alternatives vs) type shared parts)
    (below : ∀ xs rest us, Grouped xs rest us (parts.map Prod.snd) →
      merged us = merged (parts.map Prod.snd) →
      MergedAlike (alternatives us) (alternatives (parts.map Prod.snd))) :
    MergedAlike (alternatives us) (alternatives vs) := by
  obtain ⟨inner, splitX⟩ := splitV.exists_of_subset h.subset_flat
  have inFlat : rest ⊆ alternatives vs := fun c mem => (h.mem_flat c).mpr (.inr mem)
  obtain ⟨restParts, splitRest⟩ := splitV.exists_of_subset inFlat
  have new := h.merged_not_mem_shared same mx splitX splitV
  have eq := (splitX.joinable_values h.group).2.2
  rw [rejoined_of_not_mem new] at eq
  have only : spliced .or (merged xs) = [merged xs] := by
    rw [eq]
    rfl
  have permX : (merged xs).children.Perm (merged (inner.map Prod.snd) :: shared) := by
    rw [eq]
    exact sorted_perm _
  -- what the group becomes shares the conditions too
  have frames : ∀ c ∈ alternatives us,
      ∃ p : Frame × Condition, filled p = c ∧ Sharing type shared p.1 := by
    intro c mem
    rcases (h.mem_whole c).mp mem with inside | memRest
    · rw [only, List.mem_singleton] at inside
      rw [inside, eq]
      obtain ⟨f, fills, sharing⟩ := exists_sharing (b := ⟨type, .and, [], _⟩) rfl rfl
        (sorted_perm (merged (inner.map Prod.snd) :: shared))
      exact ⟨(f, _), fills, sharing⟩
    · obtain ⟨p, memP, fills⟩ := splitRest.exists_part memRest
      exact ⟨p, fills, splitRest.sharing p memP⟩
  obtain ⟨uparts, split, sharing⟩ := exists_map_eq frames
  have splitU : OneAnd (alternatives us) type shared uparts := ⟨splitV.array, split.symm, sharing⟩
  obtain ⟨joinU, -, eqU⟩ := splitU.joinable_values h.whole
  obtain ⟨joinV, -, eqV⟩ := splitV.joinable_values h.flat
  rw [eqU, eqV] at same
  rcases eq_or_mem_of_rejoined same with sameValues | ⟨memU, memV⟩
  swap
  · exact .absorbed splitU splitV memU memV
  refine .conjoined splitU splitV (below _ _ _ (h.values
    (fun c v => c.children.Perm (v :: shared)) (splitX.joinable_values h.group).1 joinU
    joinV only (fun v => splitX.mem_values_iff) (fun v => splitRest.mem_values_iff)
    (fun v => splitU.mem_values_iff) (fun v => splitV.mem_values_iff) (fun v => ?_) ?_) sameValues)
  · constructor
    · exact fun perm => eq_of_cons_perm_cons (perm.symm.trans permX)
    · rintro rfl
      exact permX
  · obtain ⟨c, memC, -, memV⟩ := h.exists_common
    obtain ⟨v, -, perm⟩ := splitV.exists_children_perm memV
    exact ⟨c, memC, v, perm⟩

/-! ### All alternatives -/

/-- **Alternatives that are grouped** before they are merged are alike to all of them if they become
the same. -/
theorem alike (h : Grouped xs rest us vs) (same : merged us = merged vs) :
    MergedAlike (alternatives us) (alternatives vs) := by
  induction size : (anyOf vs).nodeCount using Nat.strongRecOn generalizing xs rest us vs with
  | ind n ih =>
    subst size
    rcases h.group.cases with apart | ⟨mx, splitX⟩
    · exact h.alike_of_apart apart
    rcases h.flat.cases with apart | ⟨mv, ⟨g, ws, splitV⟩ | ⟨type, shared, parts, splitV⟩⟩
    · obtain ⟨c, -, memU, memV⟩ := h.exists_common
      have fewer := List.subperm_of_subset (nodup_alternatives xs) h.subset_flat
      have or := apart.operator_eq (mx.many.trans fewer.length_le)
      exact h.whole.alike_of_apart memU memV apart or same
    · have smaller := (splitV.joinable_values h.flat).2.1
      rcases splitX with ⟨f, xvals, splitX⟩ | ⟨type, shared, inner, splitX⟩
      · exact h.alike_of_oneMatch same mx splitX mv splitV
          fun _ _ _ grouped same => ih _ smaller grouped same rfl
      · obtain ⟨c, mem⟩ := List.exists_mem_of_ne_nil _ mx.alternatives_ne_nil
        exact nomatch (splitV.kind (h.subset_flat mem)).2.symm.trans (splitX.operator_eq mem)
    · have smaller := (splitV.joinable_values h.flat).2.1
      exact h.alike_of_oneAnd same mx splitV
        fun _ _ _ grouped same => ih _ smaller grouped same rfl

end Grouped

end Condition

end CallGuard
