import StackLang.Proofs.Forms
import StackLang.Proofs.Grammar.Earliest
import StackLang.Proofs.Grammar.Traced

/-!
# Places are places of tokens

All places in a parsed tree, and the place of a refusal, are places of tokens. All that is found in
a script is found at a place of its tree, whatever the tree looks like.
-/

namespace StackLang

/-! ## Places in parsed trees -/

namespace Tree

/-- All places in a tree have a property. -/
def LocatedIn (P : Location → Prop) (t : Tree) : Prop := ∀ n ∈ t.walk, ∀ l ∈ n.location, P l

variable {P : Location → Prop}

theorem locatedIn_mk {kind : Kind} {value : Option String} {attributes : Attributes}
    {children : List Tree} {location : Option Location} :
    LocatedIn P ⟨kind, value, attributes, children, location⟩ ↔
      (∀ l ∈ location, P l) ∧ ∀ c ∈ children, c.LocatedIn P :=
  forall_mem_walk

theorem LocatedIn.location {t : Tree} (h : t.LocatedIn P) : ∀ l ∈ t.location, P l :=
  (forall_mem_walk.mp h).1

theorem LocatedIn.children {t : Tree} (h : t.LocatedIn P) : ∀ c ∈ t.children, c.LocatedIn P :=
  (forall_mem_walk.mp h).2

end Tree

namespace Parser

/-- The tokens that the parser reads, and the one that ends them. -/
def readTokens (file : String) (ts : List Token) : List Token :=
  (sentence file ts).1 ++ [(sentence file ts).2]

theorem peek_mem_readTokens {file : String} {ts start rest : List Token}
    (h : (sentence file ts).1 = start ++ rest) :
    peek (sentence file ts).2 rest ∈ readTokens file ts := by
  rw [readTokens, h]
  cases rest <;> simp [peek]

/-- The nodes of a parsed tree are read off the tokens. -/
theorem traced_program {file : String} {ts : List Token} {t : Tree}
    (h : program file ts = .ok t) : Grammar.Traced (readTokens file ts) t.walk := by
  obtain ⟨d, hword, rfl⟩ := Grammar.exists_derivation_of_program h
  rw [readTokens, ← hword]
  exact d.traced_program _

/-- All places in a parsed tree are places of tokens. -/
theorem locatedIn_program {file : String} {ts : List Token} {t : Tree}
    (h : program file ts = .ok t) :
    t.LocatedIn fun l => ∃ token ∈ readTokens file ts, token.location = l := by
  intro n hn l hl
  obtain ⟨token, rest, hsub, hread⟩ := (traced_program h).exists_readAt hn
  rw [hread.location] at hl
  exact ⟨token, hsub List.mem_cons_self, Option.some.inj hl⟩

/-- What is refused is one of the tokens. -/
theorem found_mem_readTokens {file : String} {ts : List Token} {r : Refusal}
    (h : program file ts = .error r) : r.found ∈ readTokens file ts := by
  obtain ⟨start, rest, hsplit, hfound, -, -⟩ :=
    Grammar.exists_refusal (Grammar.program_eq_error_iff.mp h)
  rw [hfound]
  exact peek_mem_readTokens hsplit

end Parser

/-! ## Places of findings -/

/-- What is found is found at a place with a property, if it is found at a place at all. -/
def Finding.LocatedIn (P : Location → Prop) : Finding → Prop
  | .issue _ location => ∀ l ∈ location, P l
  | .breakdown _ => True

/-- All that is found in an expression is found at such places. -/
def Expr.LocatedIn (P : Location → Prop) (e : Expr) : Prop := e.FindsOnly (Finding.LocatedIn P)

/-- All that is found in a statement is found at such places. -/
def Stmt.LocatedIn (P : Location → Prop) (s : Stmt) : Prop := s.FindsOnly (Finding.LocatedIn P)

variable {P : Location → Prop} {location : Option Location}

theorem Finding.locatedIn_unknownName (h : ∀ l ∈ location, P l)
    (cause : String → List String → Cause) (name : Option String)
    (candidates : List (Option String)) :
    (Finding.unknownName cause name candidates location).LocatedIn P := by
  unfold Finding.unknownName
  split
  · trivial
  · split
    · trivial
    · exact h

theorem Scope.locatedIn_variableFindings (h : ∀ l ∈ location, P l) (σ : Scope)
    (name : Option String) : ∀ f ∈ σ.variableFindings name location, f.LocatedIn P := by
  unfold Scope.variableFindings
  split
  · exact List.forall_mem_nil _
  · exact List.forall_mem_singleton.mpr (Finding.locatedIn_unknownName h _ _ _)

theorem Scope.locatedIn_callFindings (h : ∀ l ∈ location, P l) (σ : Scope)
    (callee : Option String) (count : Nat) :
    ∀ f ∈ σ.callFindings callee count location, f.LocatedIn P := by
  unfold Scope.callFindings
  split
  · exact List.forall_mem_singleton.mpr (Finding.locatedIn_unknownName h _ _ _)
  · split
    · exact List.forall_mem_nil _
    · exact List.forall_mem_singleton.mpr h

namespace Expr

theorem locatedIn_hole (h : ∀ l ∈ location, P l) (m : Misuse) :
    (Expr.hole m location).LocatedIn P :=
  fun _ => List.forall_mem_singleton.mpr h

theorem locatedIn_ofNumber (h : ∀ l ∈ location, P l) (text : String) :
    (Expr.ofNumber text location).LocatedIn P := by
  unfold ofNumber
  split
  · exact locatedIn_hole h _
  · exact findsOnly_number text fun _ => trivial

theorem locatedIn_ofOperator {left right : Expr} (h : ∀ l ∈ location, P l)
    (hleft : left.LocatedIn P) (hright : right.LocatedIn P) (operator : Option String) :
    (Expr.ofOperator operator left right location).LocatedIn P := by
  unfold ofOperator
  split
  · exact FindsOnly.binary hleft hright _
  · exact fun σ => List.forall_mem_append.mpr
      ⟨List.forall_mem_append.mpr ⟨hleft σ, hright σ⟩, List.forall_mem_singleton.mpr h⟩

/-- Whatever is wrong with an expression is found at a place of its tree. -/
theorem locatedIn_ofTree (t : Tree) (h : t.LocatedIn P) : (Expr.ofTree t).LocatedIn P := by
  induction t using Tree.walk_induction with
  | h t ih =>
    obtain ⟨kind, value, attributes, children, location⟩ := t
    obtain ⟨hlocation, hchildren⟩ := Tree.locatedIn_mk.mp h
    have hoperands : ∀ e ∈ Expr.ofTrees children, e.LocatedIn P := by
      rw [ofTrees_eq_map]
      exact List.forall_mem_map.mpr fun c hc =>
        ih c (Tree.mem_walkAll_of_mem hc) (hchildren c hc)
    unfold ofTree
    split
    · exact locatedIn_ofNumber hlocation _
    · exact fun σ => Scope.locatedIn_variableFindings hlocation σ _
    · exact findsOnly_call hoperands hlocation fun σ =>
        Scope.locatedIn_callFindings hlocation σ _ _
    · split
      · rename_i operand others hothers
        rw [hothers] at hoperands
        exact hoperands operand List.mem_cons_self
      · exact locatedIn_hole hlocation _
    · split
      · split
        · rename_i left right hboth
          rw [hboth] at hoperands
          exact locatedIn_ofOperator hlocation (hoperands left List.mem_cons_self)
            (hoperands right (List.mem_cons_of_mem _ List.mem_cons_self)) _
        · exact locatedIn_hole hlocation _
      · exact locatedIn_hole hlocation _

theorem locatedIn_findings? {t : Option Tree} (h : ∀ u ∈ t, u.LocatedIn P) (σ : Scope) :
    ∀ f ∈ findings? σ (t.map Expr.ofTree), f.LocatedIn P := by
  cases t with
  | none => exact List.forall_mem_nil _
  | some u => exact locatedIn_ofTree u (h u rfl) σ

end Expr

namespace Stmt

theorem locatedIn_misuse (h : ∀ l ∈ location, P l) (m : Misuse) :
    (Stmt.misuse m location).LocatedIn P :=
  fun _ => List.forall_mem_singleton.mpr h

theorem locatedIn_ofArms {chained : Bool} {children : List Tree} {rest : Stmt}
    (h : ∀ l ∈ location, P l) (hchildren : ∀ c ∈ children, c.LocatedIn P)
    (hblocks : ∀ c ∈ children, (Stmt.ofBlock c).LocatedIn P) (hrest : rest.LocatedIn P) :
    (Stmt.ofArms chained location children rest).LocatedIn P := by
  unfold ofArms
  split
  · rename_i condition block _
    have hcondition := Expr.locatedIn_ofTree condition (hchildren condition List.mem_cons_self)
    have hblock := hblocks block (List.mem_cons_of_mem _ List.mem_cons_self)
    exact FindsOnly.branch chained hcondition hblock hrest
  · exact FindsOnly.seq (locatedIn_misuse h _) hrest

theorem locatedIn_ofBranches {ts : List Tree} {rest : Stmt} (h : ∀ l ∈ location, P l)
    (hts : ∀ t ∈ ts, ∀ c ∈ t.children, c.LocatedIn P ∧ (Stmt.ofBlock c).LocatedIn P)
    (hrest : rest.LocatedIn P) : (Stmt.ofBranches location ts rest).LocatedIn P := by
  induction ts with
  | nil => exact hrest
  | cons t ts ih =>
    obtain ⟨ht, hlater⟩ := List.forall_mem_cons.mp hts
    obtain ⟨kind, value, attributes, children, place⟩ := t
    rw [ofBranches]
    split
    · exact locatedIn_ofArms h (fun c hc => (ht c hc).1) (fun c hc => (ht c hc).2) (ih hlater)
    · exact ih hlater

theorem locatedIn_ofElse {ts : List Tree}
    (hts : ∀ t ∈ ts, ∀ c ∈ t.children, (Stmt.ofBlock c).LocatedIn P) :
    (Stmt.ofElse ts).LocatedIn P := by
  induction ts with
  | nil => exact findsOnly_skip
  | cons t ts ih =>
    obtain ⟨ht, hlater⟩ := List.forall_mem_cons.mp hts
    obtain ⟨kind, value, attributes, children, place⟩ := t
    by_cases hkind : kind = .otherwise
    · subst hkind
      cases children with
      | nil => exact findsOnly_skip
      | cons block others => exact ht block List.mem_cons_self
    · rw [Tree.ofElse_cons_of_ne hkind]
      exact ih hlater

/-- Whatever is wrong with a statement is found at a place of its tree. -/
theorem locatedIn_ofTree (t : Tree) (h : t.LocatedIn P) :
    (Stmt.ofTree t).LocatedIn P ∧ (Stmt.ofBlock t).LocatedIn P := by
  induction t using Tree.walk_induction with
  | h t ih =>
    obtain ⟨kind, value, attributes, children, location⟩ := t
    obtain ⟨hlocation, hchildren⟩ := Tree.locatedIn_mk.mp h
    have hbelow (c : Tree) (hc : c ∈ children) :=
      ih c (Tree.mem_walkAll_of_mem hc) (hchildren c hc)
    have hfurther (t : Tree) (ht : t ∈ children) (c : Tree) (hc : c ∈ t.children) :
        c.LocatedIn P ∧ (Stmt.ofBlock c).LocatedIn P :=
      have hplaces := (hchildren t ht).children c hc
      ⟨hplaces, (ih c (Tree.mem_walkAll_of_mem_children ht hc) hplaces).2⟩
    have hblock : (Stmt.ofTrees children).LocatedIn P :=
      findsOnly_ofTrees fun c hc => (hbelow c hc).1
    have hfirst : ∀ c ∈ children.head?, c.LocatedIn P := fun c hc =>
      hchildren c (List.mem_of_head? hc)
    refine ⟨?_, hblock⟩
    unfold ofTree
    split
    · split
      · exact locatedIn_misuse hlocation _
      · exact fun σ => Expr.locatedIn_findings? hfirst _
    · split
      · exact locatedIn_misuse hlocation _
      · rename_i value others
        exact fun σ => List.forall_mem_append.mpr
          ⟨Expr.locatedIn_ofTree value (hchildren value List.mem_cons_self) σ,
            Scope.locatedIn_variableFindings hlocation σ _⟩
    · exact locatedIn_ofArms hlocation hchildren (fun c hc => (hbelow c hc).2)
        (locatedIn_ofBranches hlocation hfurther
          (locatedIn_ofElse fun t ht c hc => (hfurther t ht c hc).2))
    · split
      · rename_i condition body others
        have hcondition :=
          Expr.locatedIn_ofTree condition (hchildren condition List.mem_cons_self)
        have hbody := (hbelow body (List.mem_cons_of_mem _ List.mem_cons_self)).2
        exact fun σ => List.forall_mem_append.mpr ⟨hcondition σ, hbody σ⟩
      · exact locatedIn_misuse hlocation _
    · intro σ
      rw [findings]
      split
      · exact List.forall_mem_singleton.mpr hlocation
      · exact Expr.locatedIn_findings? hfirst σ
    · exact hblock
    all_goals first
      | exact locatedIn_misuse hlocation _
      | exact Expr.locatedIn_ofTree _ h

end Stmt

theorem Parameter.repeatedFrom_sublist (seen : List (Option String)) (ps : List Parameter) :
    (repeatedFrom seen ps).Sublist ps := by
  fun_induction repeatedFrom seen ps with
  | case1 => exact .slnil
  | case2 seen p ps _ ih => exact ih.cons_cons p
  | case3 seen p ps _ ih => exact ih.cons p

/-- The parameters of a function and all in its body are found at places of its tree. -/
theorem Function.locatedIn_ofTree {t : Tree} (h : t.LocatedIn P) :
    (∀ p ∈ (Function.ofTree t).parameters, ∀ l ∈ p.location, P l) ∧
      ∀ body ∈ (Function.ofTree t).body, body.LocatedIn P := by
  constructor
  · have hparameters :
        (Function.ofTree t).parameters =
          ((t.first? .parameterList).map fun list => list.children.map Parameter.ofTree).getD [] :=
      rfl
    rw [hparameters]
    cases hlist : t.first? .parameterList with
    | none => exact List.forall_mem_nil _
    | some list =>
      have hplaces := h.children list (List.mem_of_find?_eq_some hlist)
      exact List.forall_mem_map.mpr fun c hc => (hplaces.children c hc).location
  · intro body hbody
    obtain ⟨block, hblock, rfl⟩ := Option.map_eq_some_iff.mp hbody
    exact (Stmt.locatedIn_ofTree block (h.children block (List.mem_of_find?_eq_some hblock))).2

namespace Script

theorem repeatedFrom_sublist (seen : List String) (ds : List (String × Option Location)) :
    (repeatedFrom seen ds).Sublist ds := by
  fun_induction repeatedFrom seen ds with
  | case1 => exact .slnil
  | case2 seen d ds _ ih => exact ih.cons_cons d
  | case3 seen d ds _ ih => exact ih.cons d

/-- Whatever is wrong with a script is found at a place of its tree. -/
theorem locatedIn_findings {t : Tree} {s : Script} (h : t.LocatedIn P)
    (hs : Script.ofTree? t = some s) : ∀ f ∈ s.findings, f.LocatedIn P := by
  unfold ofTree? at hs
  split at hs
  case isFalse => cases hs
  cases hs
  refine List.forall_mem_append.mpr ⟨List.forall_mem_append.mpr ⟨?_, ?_⟩, ?_⟩
  · refine List.forall_mem_map.mpr fun d hd => ?_
    obtain ⟨c, hc, hd⟩ := List.mem_filterMap.mp ((repeatedFrom_sublist _ _).subset hd)
    unfold declared? at hd
    split at hd
    · obtain ⟨name, -, rfl⟩ := Option.map_eq_some_iff.mp hd
      exact (h.children c hc).location
    · cases hd
  · refine Stmt.findsOnly_ofTrees (fun c hc => ?_) _
    exact (Stmt.locatedIn_ofTree c (h.children c (List.mem_filter.mp hc).1)).1
  · intro f hf
    obtain ⟨fate, hfate, hf⟩ := List.mem_flatMap.mp hf
    obtain ⟨g, hg, hfates⟩ := mem_fatesFrom hfate
    obtain ⟨c, hc, rfl⟩ := List.mem_map.mp hg
    have hplaces := h.children c (List.mem_filter.mp hc).1
    rcases hfates with ⟨d, rfl, hwritten, hbody⟩ | ⟨rfl, -⟩ | ⟨name, rfl⟩
    · obtain ⟨hparameters, hbodies⟩ := Function.locatedIn_ofTree hplaces
      rcases List.mem_append.mp hf with hf | hf
      · obtain ⟨p, hp, rfl⟩ := List.mem_map.mp hf
        rw [hwritten] at hp
        exact hparameters p ((Parameter.repeatedFrom_sublist _ _).subset hp)
      · exact hbodies d.body hbody _ f hf
    · rw [List.mem_singleton.mp hf]
      exact hplaces.location
    · rw [List.mem_singleton.mp hf]
      exact hplaces.location

end Script

end StackLang
