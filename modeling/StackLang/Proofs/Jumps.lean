import StackLang.Script.Code

/-!
# Jumps stay in their code

The jumps in the code of a statement lead into it or right behind it, so control leaves the code of
a function by a call or a return only, and the code outside functions by a call only.
-/

namespace StackLang

namespace Draft

/-- A jump over a distance, on a condition or not. -/
def Jumps (d : Draft) (distance : Int) : Prop :=
  d.action = .jump distance ∨ d.action = .jumpIfZero distance

/-- An action without addresses, except for one that stands for a missing function. -/
def Action.IsSettled : Action → Prop
  | .fixed (.jump _) | .fixed (.jumpIfZero _) | .fixed (.jumpIfNonzero _) => False
  | .fixed (.call target) => target = 0
  | .call _ missing => missing ≤ 0
  | _ => True

/-- The jumps in drafted code lead at most `before` drafts before it and `after` drafts behind its
end, and there are no other addresses in it. -/
structure StaysWithin (before after : Nat) (ds : List Draft) : Prop where
  settled : ∀ d ∈ ds, d.action.IsSettled
  jumps : ∀ (k : Nat) d distance, ds[k]? = some d → d.Jumps distance →
    0 ≤ (before : Int) + k + distance ∧ (k : Int) + distance ≤ ds.length + after

variable {d : Draft} {ds es condition yes no body : List Draft} {before after : Nat}

theorem not_jumps_of_fixed {operation : Operation} (h : d.action = .fixed operation)
    (distance : Int) : ¬d.Jumps distance := by
  rw [Jumps, h]
  rintro (hd | hd) <;> cases hd

namespace StaysWithin

theorem nil : StaysWithin before after [] := by
  refine ⟨by simp, fun k d distance hd => ?_⟩
  cases hd

theorem mono (h : StaysWithin 0 0 ds) (before after : Nat) : StaysWithin before after ds := by
  refine ⟨h.settled, fun k d distance hd hjumps => ?_⟩
  have hk := h.jumps k d distance hd hjumps
  omega

theorem append (hds : StaysWithin before (es.length + after) ds)
    (hes : StaysWithin (before + ds.length) after es) : StaysWithin before after (ds ++ es) := by
  constructor
  · intro d hd
    rcases List.mem_append.mp hd with hd | hd
    · exact hds.settled d hd
    · exact hes.settled d hd
  · intro k d distance hd hjumps
    rw [List.length_append]
    by_cases hk : k < ds.length
    · rw [List.getElem?_append_left hk] at hd
      have hd' := hds.jumps k d distance hd hjumps
      omega
    · rw [List.getElem?_append_right (by omega)] at hd
      have hd' := hes.jumps _ d distance hd hjumps
      omega

/-- Local code before and after other local code. -/
theorem append_local (hds : StaysWithin 0 0 ds) (hes : StaysWithin 0 0 es) :
    StaysWithin 0 0 (ds ++ es) :=
  (hds.mono _ _).append (hes.mono _ _)

theorem singleton (hsettled : d.action.IsSettled)
    (h : ∀ distance, d.Jumps distance → 0 ≤ before + distance ∧ distance ≤ after + 1) :
    StaysWithin before after [d] := by
  refine ⟨fun e he => List.mem_singleton.mp he ▸ hsettled, fun k e distance he hjumps => ?_⟩
  obtain rfl := List.mem_singleton.mp (List.mem_of_getElem? he)
  have hlength : [e].length = 1 := rfl
  have hk := (List.getElem?_eq_some_iff.mp he).1
  have he' := h distance hjumps
  omega

theorem fixed {operation : Operation} (h : d.action = .fixed operation)
    (hsettled : d.action.IsSettled) : StaysWithin before after [d] :=
  singleton hsettled fun distance hjumps => absurd hjumps (not_jumps_of_fixed h distance)

theorem jump {distance : Int} (h : d.Jumps distance) (hbefore : 0 ≤ before + distance)
    (hafter : distance ≤ after + 1) : StaysWithin before after [d] := by
  refine singleton ?_ fun distance' hjumps => ?_
  · rcases h with h | h <;> rw [h] <;> trivial
  · have heq : distance' = distance := by
      rcases h with h | h <;> rw [Jumps, h] at hjumps <;> simp_all
    omega

theorem branchCode (chained : Bool) (hcondition : StaysWithin 0 0 condition)
    (hyes : StaysWithin 0 0 yes) (hno : StaysWithin 0 0 no) :
    StaysWithin 0 0 (branchCode chained condition yes no) := by
  refine append (append (append (append ?_ ?_) ?_) ?_) ?_
  · exact hcondition.mono _ _
  · refine jump (.inr rfl) (by omega) ?_
    simp only [List.length_singleton]
    omega
  · exact hyes.mono _ _
  · exact jump (.inl rfl) (by omega) (by omega)
  · exact hno.mono _ _

theorem loopCode (hcondition : StaysWithin 0 0 condition) (hbody : StaysWithin 0 0 body) :
    StaysWithin 0 0 (loopCode condition body) := by
  refine append (append (append ?_ ?_) ?_) ?_
  · exact hcondition.mono _ _
  · refine jump (.inr rfl) (by omega) ?_
    simp only [List.length_singleton]
    omega
  · exact hbody.mono _ _
  · refine jump (.inl rfl) ?_ (by omega)
    simp only [List.length_append, List.length_singleton]
    omega

theorem load (place : Place) (comment : String) :
    StaysWithin before after [Draft.load place comment] := by
  cases place <;> exact fixed rfl trivial

theorem store (place : Place) (comment : String) :
    StaysWithin before after [Draft.store place comment] := by
  cases place <;> exact fixed rfl trivial

theorem call (callee : String) {missing : Int} (hmissing : missing ≤ 0)
    (label comment : Option String) :
    StaysWithin before after [{ action := .call callee missing, label, comment }] := by
  refine singleton hmissing fun distance hjumps => ?_
  rcases hjumps with hjumps | hjumps <;> cases hjumps

end StaysWithin

end Draft

open Draft (StaysWithin)

theorem Scope.staysWithin_callDraft (σ : Scope) (callee : Option String) :
    StaysWithin 0 0 [σ.callDraft callee] := by
  unfold Scope.callDraft
  split
  · exact .call _ (Int.le_refl 0) _ _
  · exact .fixed rfl rfl

mutual

/-- There are no jumps in the code of an expression. -/
theorem Expr.staysWithin_code (σ : Scope) (e : Expr) : StaysWithin 0 0 (e.code σ) := by
  cases e with
  | number digits => exact .fixed rfl trivial
  | «variable» name location =>
    rw [Expr.code]
    split
    · exact .load _ _
    · exact .fixed rfl trivial
  | binary op left right =>
    exact ((Expr.staysWithin_code σ left).append_local (Expr.staysWithin_code σ right)).append_local
      (.fixed rfl trivial)
  | unknown operator left right location =>
    have hpop : StaysWithin 0 0 [.bare .pop] := .fixed rfl trivial
    have hzero : StaysWithin 0 0 [.placeholder] := .fixed rfl trivial
    exact ((Expr.staysWithin_code σ left).append_local (Expr.staysWithin_code σ right)).append_local
      (hpop.append_local (hpop.append_local hzero))
  | negate operand => exact (Expr.staysWithin_code σ operand).append_local (.fixed rfl trivial)
  | call callee arguments location =>
    rw [Expr.code]
    split
    · split
      · exact (Expr.staysWithin_codeAll σ arguments).append_local (.fixed rfl trivial)
      · exact (Expr.staysWithin_codeDiscarded σ arguments).append_local (.fixed rfl trivial)
    · exact (Expr.staysWithin_codeAll σ arguments).append_local (σ.staysWithin_callDraft callee)
  | hole m location => exact .fixed rfl trivial

theorem Expr.staysWithin_codeAll (σ : Scope) (es : List Expr) :
    StaysWithin 0 0 (Expr.codeAll σ es) := by
  cases es with
  | nil => exact .nil
  | cons e es => exact (Expr.staysWithin_code σ e).append_local (Expr.staysWithin_codeAll σ es)

theorem Expr.staysWithin_codeDiscarded (σ : Scope) (es : List Expr) :
    StaysWithin 0 0 (Expr.codeDiscarded σ es) := by
  cases es with
  | nil => exact .nil
  | cons e es =>
    have hpop : StaysWithin 0 0 [.bare .pop] := .fixed rfl trivial
    exact ((Expr.staysWithin_code σ e).append_local hpop).append_local
      (Expr.staysWithin_codeDiscarded σ es)

end

/-- The jumps in the code of a statement lead into it or right behind it. -/
theorem Stmt.staysWithin_code (σ : Scope) (s : Stmt) : StaysWithin 0 0 (s.code σ) := by
  induction s generalizing σ with
  | skip => exact .nil
  | seq first second ih₁ ih₂ => exact (ih₁ σ).append_local (ih₂ _)
  | declare name value =>
    cases value with
    | none => exact StaysWithin.append_local (.fixed rfl trivial) (.store _ _)
    | some e => exact (Expr.staysWithin_code _ e).append_local (.store _ _)
  | assign name value location =>
    refine (Expr.staysWithin_code σ value).append_local ?_
    split
    · exact .store _ _
    · exact .fixed rfl trivial
  | discard value => exact (Expr.staysWithin_code σ value).append_local (.fixed rfl trivial)
  | branch chained condition yes no ih₁ ih₂ =>
    exact .branchCode chained (Expr.staysWithin_code σ condition) (ih₁ σ) (ih₂ _)
  | loop condition body ih => exact .loopCode (Expr.staysWithin_code σ condition) (ih σ)
  | giveBack value location =>
    cases hinside : σ.inside with
    | none =>
      simp only [Stmt.code, hinside]
      exact .nil
    | some f =>
      simp only [Stmt.code, hinside]
      cases value with
      | none => exact StaysWithin.append_local (.fixed rfl trivial) (.fixed rfl trivial)
      | some e => exact (Expr.staysWithin_code σ e).append_local (.fixed rfl trivial)
  | misuse m location => exact .nil

/-! ## Closed code -/

/-- A draft behind which control does not go on: a return or the end of the run. -/
def Draft.IsFinal (d : Draft) : Prop :=
  d.action = .fixed .halt ∨ ∃ arguments, d.action = .fixed (.giveBack arguments)

/-- Control leaves drafted code by calls, by returns and by the end of the run only. -/
structure Draft.IsClosed (ds : List Draft) : Prop where
  settled : ∀ d ∈ ds, d.action.IsSettled
  jumps : ∀ (k : Nat) d distance, ds[k]? = some d → d.Jumps distance →
    ∃ target : Nat, (k : Int) + distance = target ∧ target < ds.length
  next : ∀ k d, ds[k]? = some d → ¬d.IsFinal → k + 1 < ds.length

/-- Code with local jumps before a last draft. -/
theorem Draft.StaysWithin.isClosed {ds : List Draft} {d : Draft} (h : StaysWithin 0 0 ds)
    (hd : d.IsFinal) : Draft.IsClosed (ds ++ [d]) := by
  have hlength : (ds ++ [d]).length = ds.length + 1 := by simp
  have hfixed : ∃ operation, d.action = .fixed operation := by
    rcases hd with hd | ⟨arguments, hd⟩ <;> exact ⟨_, hd⟩
  have hlast {k : Nat} {e : Draft} (he : (ds ++ [d])[k]? = some e) (hk : ¬k < ds.length) :
      e = d := by
    rw [List.getElem?_append_right (by omega)] at he
    exact List.mem_singleton.mp (List.mem_of_getElem? he)
  constructor
  · intro e he
    rcases List.mem_append.mp he with he | he
    · exact h.settled e he
    · obtain rfl := List.mem_singleton.mp he
      rcases hd with hd | ⟨arguments, hd⟩ <;> rw [hd] <;> trivial
  · intro k e distance he hjumps
    by_cases hk : k < ds.length
    · rw [List.getElem?_append_left hk] at he
      have hk' := h.jumps k e distance he hjumps
      exact ⟨((k : Int) + distance).toNat, by omega, by omega⟩
    · obtain ⟨operation, hfixed⟩ := hfixed
      rw [hlast he hk] at hjumps
      exact absurd hjumps (Draft.not_jumps_of_fixed hfixed distance)
  · intro k e he hfinal
    by_cases hk : k < ds.length
    · omega
    · rw [hlast he hk] at hfinal
      exact absurd hd hfinal

theorem Script.isClosed_entryCode (s : Script) : Draft.IsClosed s.entryCode := by
  have hcall : StaysWithin 0 0
      [{ action := .call entryName (-1), comment := some ("call " ++ entryName) }] :=
    .call _ (by decide) _ _
  have hclosed := ((Stmt.staysWithin_code s.startScope s.entry).append_local hcall).isClosed
    (d := .of .halt "end of program") (.inl rfl)
  rwa [List.append_assoc] at hclosed

theorem Definition.isClosed_code (σ : Scope) (e : Definition) : Draft.IsClosed (e.code σ) := by
  have henter : StaysWithin 0 0 [(e.code σ).head (List.cons_ne_nil _ _)] := .fixed rfl trivial
  have hpush : StaysWithin 0 0 [.of (.push 0) "default return value"] := .fixed rfl trivial
  have hbody := (Stmt.staysWithin_code (e.scope σ) e.body).append_local hpush
  have hclosed := (henter.append_local hbody).isClosed
    (d := .of (.giveBack e.written.parameters.length) ("exit " ++ e.name)) (.inr ⟨_, rfl⟩)
  rwa [List.append_assoc, List.append_assoc] at hclosed

end StackLang
