import StackLang.Proofs.Discipline.Halting
import StackLang.Proofs.Twins

/-!
# Relocated programs

Two programs are the same up to addresses if instructions at addresses that belong together do the
same and lead to addresses that belong together. If the first one is disciplined, machines that
execute them go side by side, step by step: what differs between them are the addresses they are at
and the addresses to return to, which are in the words that open calls have saved.
-/

namespace StackLang

/-- An operation that leads to the next address only. -/
def Operation.IsPlain : Operation → Prop
  | .jump _ | .jumpIfZero _ | .jumpIfNonzero _ | .call _ | .giveBack _ | .halt => False
  | _ => True

/-- The operations at two addresses do the same, and lead to addresses that belong together. -/
inductive Operation.Corresponds (Related : Nat → Nat → Prop) (a a' : Nat) :
    Operation → Operation → Prop
  | plain {op : Operation} (hop : op.IsPlain) (next : Related (a + 1) (a' + 1)) :
    Corresponds Related a a' op op
  | jump {target target' : Nat} (goal : Related target target') :
    Corresponds Related a a' (.jump target) (.jump target')
  | jumpIfZero {target target' : Nat} (goal : Related target target')
      (next : Related (a + 1) (a' + 1)) :
    Corresponds Related a a' (.jumpIfZero target) (.jumpIfZero target')
  | call {target target' : Nat} (goal : Related target target')
      (next : Related (a + 1) (a' + 1)) : Corresponds Related a a' (.call target) (.call target')
  | missing {target : Int} (negative : target < 0) :
    Corresponds Related a a' (.call target) (.call target)
  | giveBack (count : Int) : Corresponds Related a a' (.giveBack count) (.giveBack count)
  | halt : Corresponds Related a a' .halt .halt

theorem Operation.Corresponds.ne_foreign {Related : Nat → Nat → Prop} {a a' : Nat}
    {op op' : Operation} {x : Foreign} (h : op.Corresponds Related a a' op')
    (hop : op ≠ .foreign x) : op' ≠ .foreign x := by
  cases h with
  | plain => exact hop
  | _ => exact Operation.noConfusion

/-- The second program is the first one at other addresses. -/
structure Stage.Relocates (S : Stage) : Prop where
  globals : S.program'.globals = S.program.globals
  start : S.Related 0 0
  code : ∀ a a', S.Related a a' → ∃ i i', S.program.code[a]? = some i ∧
    S.program'.code[a']? = some i' ∧ i.operation.Corresponds S.Related a a' i'.operation

namespace Stage.Relocates

variable {S : Stage} {a a' : Nat}

theorem lt_size (h : S.Relocates) (hrelated : S.Related a a') :
    a < S.program.size ∧ a' < S.program'.size := by
  obtain ⟨i, i', hi, hi', -⟩ := h.code a a' hrelated
  exact ⟨(Array.getElem?_eq_some_iff.mp hi).1, (Array.getElem?_eq_some_iff.mp hi').1⟩

end Stage.Relocates

namespace Machine

/-- A machine with a program that it has not begun. -/
def fresh (options : MachineOptions) (p : Program) : Machine :=
  { options, program := p, stack := emptyStack options, sp := 0, fp := 0, pc := 0,
    running := true, steps := 0, output := #[] }

theorem loadProgram_eq_fresh (p : Program) (m : Machine) :
    loadProgram p m =
      if m.options.stackSize < p.globals then
        .error (.fault ⟨.globalsExceed p.globals m.options.stackSize, (fresh m.options p).pc, none⟩)
          { fresh m.options p with running := false }
      else .ok () { fresh m.options p with sp := p.globals } :=
  rfl

/-- Two machines have the same pointers, output and number of steps, and the same live words except
for those in `D`. -/
structure SameExcept (D : Nat → Prop) (m m' : Machine) : Prop where
  sp : m'.sp = m.sp
  fp : m'.fp = m.fp
  output : m'.output = m.output
  steps : m'.steps = m.steps
  words : ∀ k : Nat, (k : Int) < m.sp → ¬D k → m'.word? k = m.word? k

/-- The word at an index holds a return address after `n` steps of a program: a call has pushed it,
and it has been on the stack ever since. -/
def ReturnSlot (p : Program) (m : Machine) (n k : Nat) : Prop :=
  ∃ t < n, ∃ m₁ i target, trial p t m = .ok () m₁ ∧ m₁.current? = some i ∧
    i.operation = .call target ∧ m₁.sp = k ∧
    ∀ u, t < u → u ≤ n → (k : Int) < (leave (trial p u) m).sp

section ReturnSlot

variable {p : Program} {m m₁ : Machine} {n k : Nat}

/-- A return address stays one for as long as it is on the stack. -/
theorem ReturnSlot.succ (h : ReturnSlot p m n k)
    (hlive : (k : Int) < (leave (trial p (n + 1)) m).sp) : ReturnSlot p m (n + 1) k := by
  obtain ⟨t, ht, m₁, i, target, htrial, hi, hcall, hsp, hsince⟩ := h
  refine ⟨t, by omega, m₁, i, target, htrial, hi, hcall, hsp, fun u htu hu => ?_⟩
  rcases Nat.lt_or_eq_of_le hu with hu | rfl
  · exact hsince u htu (by omega)
  · exact hlive

theorem returnSlot_of_call {i : Instruction} {target : Int} (htrial : trial p n m = .ok () m₁)
    (hi : m₁.current? = some i) (hcall : i.operation = .call target) (hsp : m₁.sp = k)
    (hlive : (k : Int) < (leave (trial p (n + 1)) m).sp) : ReturnSlot p m (n + 1) k := by
  refine ⟨n, by omega, m₁, i, target, htrial, hi, hcall, hsp, fun u htu hu => ?_⟩
  obtain rfl : u = n + 1 := by omega
  exact hlive

end ReturnSlot

namespace SameExcept

variable {D D' : Nat → Prop} {m m' : Machine}

theorem imp (h : SameExcept D m m') (hD : ∀ k : Nat, (k : Int) < m.sp → D k → D' k) :
    SameExcept D' m m' :=
  { h with words := fun k hk hnot => h.words k hk fun hk' => hnot (hD k hk hk') }

theorem of_twin {S : Stage} {V : Shared} (h : Twin S V m m') : SameExcept V.saved m m' where
  sp := h.right.sp.trans h.left.sp.symm
  fp := h.right.fp.trans h.left.fp.symm
  output := h.output
  steps := h.steps
  words := fun k hk hnot => by
    rw [h.left.sp] at hk
    obtain ⟨v, v', hv, hv', hmatch⟩ := h.exists_word? hk
    rw [hv, hv', hmatch.2 hnot]

theorem stop (h : SameExcept D m m') :
    SameExcept D { m with running := false } { m' with running := false } :=
  { h with }

end SameExcept

end Machine

namespace Discipline

open Machine

/-- The words in which open calls have saved the addresses to return to. -/
def SavedBy (fs : List Frame) (k : Nat) : Prop := ∃ f ∈ fs, k + 2 = f.base

/-- In the middle of a call there may be one such word more. -/
def SavedDuring (op : Operation) (fs : List Frame) (sp : Int) (k : Nat) : Prop :=
  SavedBy fs k ∨ (∃ target, op = .call target) ∧ (k : Int) = sp

/-- After a return there is one such word less. -/
def SavedAfter (op : Operation) (fs : List Frame) (sp : Int) : Nat → Prop :=
  match op with
  | .giveBack _ => SavedBy fs.tail
  | _ => SavedDuring op fs sp

/-- Two machines have come to addresses that belong together. -/
def Moves (S : Stage) (D : Nat → Prop) : Unit → Machine → Unit → Machine → Prop :=
  fun _ m₁ _ m₁' => ∃ (V : Shared) (a a' : Nat), Twin S V m₁ m₁' ∧ V.saved = D ∧
    V.pc = a ∧ V.pc' = a' ∧ S.Related a a'

variable {At : Nat → Point → Prop} {g : Nat} {m m' : Machine} {ws : List Int} {fs : List Frame}
  {i i' : Instruction} {op op' : Operation} {S : Stage} {V : Shared} {a a' : Nat} {depth : Int}

theorem savedDuring_eq (hop : ∀ target, op ≠ .call target) (fs : List Frame) (sp : Int) :
    SavedDuring op fs sp = SavedBy fs := by
  funext k
  simp [SavedDuring, hop]

theorem savedDuring_call (target : Int) (fs : List Frame) (sp : Int) :
    SavedDuring (.call target) fs sp = fun k => SavedBy fs k ∨ (k : Int) = sp := by
  funext k
  simp [SavedDuring]

theorem savedAfter_eq (hcall : ∀ target, op ≠ .call target)
    (hreturn : ∀ count, op ≠ .giveBack count) (fs : List Frame) (sp : Int) :
    SavedAfter op fs sp = SavedBy fs := by
  unfold SavedAfter
  split
  · exact absurd rfl (hreturn _)
  · exact savedDuring_eq hcall fs sp

/-- The frames after a step have the saved words. -/
theorem Turns.savedAfter_eq {m₁ : Machine} {ws₁ : List Int} {fs₁ : List Frame}
    (h : Turns At op m ws fs m₁ ws₁ fs₁) : SavedAfter op fs ws.length = SavedBy fs₁ := by
  cases op with
  | call target =>
    obtain ⟨-, f, rfl, hbase, -⟩ := h
    change SavedDuring (.call target) fs ws.length = _
    rw [savedDuring_call]
    funext k
    simp only [SavedBy, List.mem_cons, exists_eq_or_imp, hbase, eq_iff_iff]
    rw [or_comm]
    exact or_congr_left (by omega)
  | giveBack count =>
    obtain ⟨f, rfl, -⟩ := h
    rfl
  | _ =>
    obtain rfl : fs₁ = fs := h
    exact savedDuring_eq (by simp) fs₁ _

/-! ## Steps -/

/-- Two machines that go on to the next addresses. -/
theorem Moves.of_goesOn {n : Int} {r r' : EStateM.Result Stop Machine Unit}
    (h : Agree S (Slips S V) (Twin.GoesOn S V n) r r') (hpc : V.pc = a) (hpc' : V.pc' = a')
    (hnext : S.Related (a + 1) (a' + 1)) (hsaved : V.saved = SavedBy fs)
    (hcall : ∀ target, op ≠ .call target) (hreturn : ∀ count, op ≠ .giveBack count) :
    Agree S (Slips S { V with saved := SavedDuring op fs V.sp })
      (Moves S (SavedAfter op fs V.sp)) r r' := by
  rw [savedDuring_eq hcall, savedAfter_eq hcall hreturn, ← hsaved]
  refine h.imp (fun _ m₁ _ m₁' htwin => ?_) fun _ _ => id
  exact ⟨_, a + 1, a' + 1, htwin, rfl, by simp [hpc], by simp [hpc'], hnext⟩

/-- There is nothing saved above the variables. -/
theorem Framed.free (h : Framed At g m ws fs) (htwin : Twin S V m m')
    (hsaved : V.saved = SavedBy fs) {n : Nat} (hfloor : floor g fs + n ≤ ws.length) : V.Free n := by
  intro k hk hsaves
  rw [hsaved] at hsaves
  obtain ⟨f, hf, hbase⟩ := hsaves
  have hle := h.linked.base_le_floor hf
  have hsp : V.sp = ws.length := htwin.left.sp.symm.trans h.holds.sp
  omega

/-- A call of functions that belong together. -/
theorem agree_call {target target' : Nat} (hS : S.Relocates) (htwin : Twin S V m m')
    (hsaved : V.saved = SavedBy fs) (hpc : V.pc = a) (hpc' : V.pc' = a') (hfree : V.Free 0)
    (hgoal : S.Related target target') (hnext : S.Related (a + 1) (a' + 1)) :
    Agree S (Slips S { V with saved := SavedDuring (.call target) fs V.sp })
      (Moves S (SavedAfter (.call target) fs V.sp)) (call i target m) (call i' target' m') := by
  obtain ⟨hlt, hlt'⟩ := hS.lt_size hgoal
  have hagree : Agree S _ _ (call i target m) (call i' target' m') :=
    htwin.call hfree hlt hlt' (by rw [hpc]; rfl) (by rw [hpc']; rfl) hnext
  rw [hsaved, ← savedDuring_call target] at hagree
  exact hagree.imp (fun _ _ _ _ h₁ => ⟨_, _, _, h₁, rfl, rfl, rfl, hgoal⟩) fun _ _ => id

/-- The outer frames end below the arguments of the innermost one. -/
theorem Linked.outer_le {f e : Frame} (h : Linked At g ws (f :: fs)) (he : e ∈ fs) :
    e.base + f.parameters + 2 ≤ f.base := by
  cases h with
  | call rest next depth_nonneg base_eq returnTo caller =>
    have hle := rest.base_le_floor he
    omega
  | begin next base_eq returnTo caller => cases he

/-- A return to addresses that belong together. -/
theorem Framed.agree_giveBack {f : Frame} (h : Framed At g m ws (f :: fs)) (htwin : Twin S V m m')
    (hsaved : V.saved = SavedBy (f :: fs)) (hfree : V.Free 1)
    (hlive : f.base < ws.length) :
    Agree S (Slips S { V with saved := SavedDuring (.giveBack f.parameters) (f :: fs) V.sp })
      (Moves S (SavedAfter (.giveBack f.parameters) (f :: fs) V.sp)) (giveBack i f.parameters m)
      (giveBack i' f.parameters m') := by
  have hsp : V.sp = ws.length := htwin.left.sp.symm.trans h.holds.sp
  have hfp : V.fp = f.base := htwin.left.fp.symm.trans h.fp
  have hbase := h.linked.globals_lt_base List.mem_cons_self
  have hreturn : V.saved (f.base - 2) := by
    rw [hsaved]
    exact ⟨f, List.mem_cons_self, by omega⟩
  have hcaller : ¬V.saved (f.base - 1) := by
    rw [hsaved]
    rintro ⟨e, he, heq⟩
    rcases List.mem_cons.mp he with rfl | he
    · omega
    · have hle := h.linked.outer_le he
      omega
  have hrest (j : Nat) (hj : j < f.base - 2 - f.parameters) : SavedBy fs j ↔ V.saved j := by
    rw [hsaved]
    constructor
    · rintro ⟨e, he, heq⟩
      exact ⟨e, List.mem_cons_of_mem _ he, heq⟩
    · rintro ⟨e, he, heq⟩
      rcases List.mem_cons.mp he with rfl | he
      · omega
      · exact ⟨e, he, heq⟩
  have hvalue : ¬SavedBy fs (f.base - 2 - f.parameters) := by
    rintro ⟨e, he, heq⟩
    have hle := h.linked.outer_le he
    omega
  rw [savedDuring_eq (by simp), ← hsaved]
  refine (htwin.giveBack hfree hfp (by omega) (by omega) hreturn hcaller hrest hvalue).imp
    (fun _ m₁ _ m₁' h₁ => ?_) fun _ _ => id
  obtain ⟨a, a', sp, fp, hrelated, htwin₁⟩ := h₁
  exact ⟨_, a, a', htwin₁, rfl, rfl, rfl, hrelated⟩

/-- A plain operation within a region takes both machines to the next addresses. -/
theorem Framed.goesOn_within (h : Framed At g m ws fs) (htwin : Twin S V m m')
    (hsaved : V.saved = SavedBy fs) (hlength : (ws.length : Int) = floor g fs + depth)
    (hdepth : 0 ≤ depth) (hobeys : Obeys At g a (.within (region fs) depth) op)
    (hplain : op.IsPlain) (hop : i.operation = op) (hop' : i'.operation = op) :
    ∃ n, Agree S (Slips S V) (Twin.GoesOn S V n) (execute i m) (execute i' m') := by
  have hfree (n : Nat) (hn : (n : Int) ≤ depth) : V.Free n :=
    h.free htwin hsaved (by omega)
  have hunsaved {k : Nat} (hk : IsVariable g fs k) : ¬V.saved k := by
    rw [hsaved]
    rintro ⟨f, hf, hbase⟩
    exact hk.not_saves f hf (.inl hbase)
  have hoffset {offset : Int} (hknown : (region fs).HasOffset offset) (k : Nat)
      (hk : V.fp + offset = k) : ¬V.saved k := by
    rw [← htwin.left.fp, h.fp] at hk
    exact hunsaved (h.linked.isVariable_offset hknown hk)
  have hslot {slot : Nat} (hknown : slot < g) (k : Nat) (hk : (slot : Int) = k) : ¬V.saved k := by
    obtain rfl : slot = k := by omega
    exact hunsaved (h.linked.isVariable_global hknown)
  unfold execute
  rw [hop, hop']
  generalize hregion : region fs = r at hobeys
  cases hobeys with
  | push v next => exact ⟨_, htwin.push_advance (hfree 0 hdepth) _⟩
  | load known next =>
    subst hregion
    exact ⟨_, htwin.load_offset (hfree 0 hdepth) (hoffset known)⟩
  | store known enough next =>
    subst hregion
    exact ⟨_, htwin.store_offset (hfree 1 enough) (hoffset known)⟩
  | loadGlobal known next => exact ⟨_, htwin.load (hfree 0 hdepth) (hslot known)⟩
  | storeGlobal known enough next => exact ⟨_, htwin.store (hfree 1 enough) (hslot known)⟩
  | pop enough next => exact ⟨_, htwin.drop (hfree 1 enough)⟩
  | compute op enough next => exact ⟨_, htwin.compute (hfree 2 enough) op⟩
  | negate enough next => exact ⟨_, htwin.negate (hfree 1 enough)⟩
  | print enough next => exact ⟨_, htwin.print (hfree 1 enough)⟩
  | jump | jumpIfZero | call | begin | missing | giveBack => exact hplain.elim

/-- An operation within a region, at two addresses that belong together. -/
theorem Framed.agree_within (hS : S.Relocates) (h : Framed At g m ws fs) (htwin : Twin S V m m')
    (hsaved : V.saved = SavedBy fs) (hpc : V.pc = a) (hpc' : V.pc' = a')
    (hlength : (ws.length : Int) = floor g fs + depth) (hdepth : 0 ≤ depth)
    (hobeys : Obeys At g a (.within (region fs) depth) op)
    (hcorresponds : op.Corresponds S.Related a a' op') (hop : i.operation = op)
    (hop' : i'.operation = op') :
    Agree S (Slips S { V with saved := SavedDuring op fs V.sp })
      (Moves S (SavedAfter op fs V.sp)) (execute i m) (execute i' m') := by
  have hfree (n : Nat) (hn : (n : Int) ≤ depth) : V.Free n :=
    h.free htwin hsaved (by omega)
  unfold execute
  rw [hop, hop']
  generalize hregion : region fs = r at hobeys
  cases hcorresponds with
  | plain hplain hnext =>
    subst hregion
    obtain ⟨n, hagree⟩ := h.goesOn_within htwin hsaved hlength hdepth hobeys hplain hop hop'
    unfold execute at hagree
    rw [hop, hop'] at hagree
    refine Moves.of_goesOn hagree hpc hpc' hnext hsaved ?_ ?_
    · rintro target rfl
      exact hplain
    · rintro count rfl
      exact hplain
  | jump hgoal =>
    obtain ⟨hlt, hlt'⟩ := hS.lt_size hgoal
    rw [savedDuring_eq (by simp), savedAfter_eq (by simp) (by simp), ← hsaved]
    exact (htwin.jump hlt hlt').imp (fun _ _ _ _ h₁ => ⟨_, _, _, h₁, rfl, rfl, rfl, hgoal⟩)
      fun _ _ => id
  | jumpIfZero hgoal hnext =>
    obtain ⟨hlt, hlt'⟩ := hS.lt_size hgoal
    have enough : 1 ≤ depth := by
      cases hobeys with
      | jumpIfZero enough => exact enough
    rw [savedDuring_eq (by simp), savedAfter_eq (by simp) (by simp), ← hsaved]
    refine (htwin.jumpIfZero (hfree 1 enough) hlt hlt').imp (fun _ m₁ _ m₁' h₁ => ?_)
      fun _ _ => id
    rcases h₁ with h₁ | h₁
    · exact ⟨_, a + 1, a' + 1, h₁, rfl, by simp [hpc], by simp [hpc'], hnext⟩
    · exact ⟨_, _, _, h₁, rfl, rfl, rfl, hgoal⟩
  | call hgoal hnext => exact agree_call hS htwin hsaved hpc hpc' (hfree 0 hdepth) hgoal hnext
  | missing negative =>
    refine (htwin.resave fun j hj => ?_).call_of_negative negative
    rw [savedDuring_call, hsaved]
    exact or_iff_left (by omega)
  | giveBack count =>
    cases hobeys with
    | giveBack enough =>
      cases fs with
      | nil => cases hregion
      | cons f fs =>
        cases hregion
        rw [floor] at hlength
        exact h.agree_giveBack htwin hsaved (hfree 1 enough) (by omega)
  | halt => cases hobeys

/-- An operation at two addresses that belong together. -/
theorem Framed.agree_execute (hS : S.Relocates) (h : Framed At g m ws fs) (htwin : Twin S V m m')
    (hsaved : V.saved = SavedBy fs) (hpc : V.pc = a) (hpc' : V.pc' = a')
    (hstands : Stands At g ws fs a) (hobeys : ∀ point, At a point → Obeys At g a point op)
    (hcorresponds : op.Corresponds S.Related a a' op') (hrelated : S.Related a a')
    (hop : i.operation = op) (hop' : i'.operation = op') :
    Agree S (Slips S { V with saved := SavedDuring op fs V.sp })
      (Moves S (SavedAfter op fs V.sp)) (execute i m) (execute i' m') := by
  cases hstands with
  | within point depth_nonneg length_eq =>
    exact h.agree_within hS htwin hsaved hpc hpc' length_eq depth_nonneg (hobeys _ point)
      hcorresponds hop hop'
  | entrance point length_eq =>
    cases hobeys _ point with
    | enter next =>
      cases hcorresponds with
      | plain _ hnext =>
        unfold execute
        rw [hop, hop']
        have hsp : V.sp = ws.length := htwin.left.sp.symm.trans h.holds.sp
        have hfree : V.Free 0 := by
          intro k hk hsaves
          rw [hsaved] at hsaves
          obtain ⟨e, he, hbase⟩ := hsaves
          have hle := h.linked.base_le_length he
          omega
        exact Moves.of_goesOn (htwin.enter hfree _) hpc hpc' hnext hsaved (by simp) (by simp)
  | exit point some =>
    cases hobeys _ point with
    | halt =>
      cases hcorresponds with
      | plain hplain => exact hplain.elim
      | halt =>
        unfold execute
        rw [hop, hop', savedAfter_eq (by simp) (by simp), ← hsaved]
        exact .ok ⟨V, a, a', htwin.halt, rfl, hpc, hpc', hrelated⟩

theorem Stands.exists_point (h : Stands At g ws fs a) : ∃ point, At a point := by
  cases h with
  | within point => exact ⟨_, point⟩
  | entrance point => exact ⟨_, point⟩
  | exit point => exact ⟨_, point⟩

/-! ## Runs -/

/-- Machines that execute a program and a relocated one, side by side. -/
structure Mirrors (S : Stage) (At : Nat → Point → Prop) (g : Nat) (m m' : Machine) (ws : List Int)
    (fs : List Frame) : Prop where
  inOrder : InOrder At g m ws fs
  moves : Moves S (SavedBy fs) () m () m'

/-- A step side by side. -/
theorem Mirrors.step {ws : List Int} (hp : Disciplined S.program g At) (hS : S.Relocates)
    (h : Mirrors S At g m m' ws fs) :
    ∃ i, m.current? = some i ∧
      Agree S (fun m₁ m₁' => ∃ V : Shared, Twin S V m₁ m₁' ∧
          V.saved = SavedDuring i.operation fs m.sp)
        (fun _ m₁ _ m₁' => ∃ ws₁ fs₁, Mirrors S At g m₁ m₁' ws₁ fs₁ ∧
          Advances At g i.operation m ws fs m₁ ws₁ fs₁)
        (Machine.step m) (Machine.step m') := by
  obtain ⟨V, a, a', htwin, hsaved, hpc, hpc', hrelated⟩ := h.moves
  obtain ⟨i, i', hi, hi', hcorresponds⟩ := hS.code a a' hrelated
  have hprogram := htwin.left.program
  have hcurrent : m.current? = some i := by
    rw [current?_of_pc (htwin.left.pc.trans hpc), hprogram, hi]
  have hcurrent' : m'.current? = some i' := by
    rw [current?_of_pc (htwin.right.pc.trans hpc'), htwin.right.program, hi']
  obtain ⟨address, haddress, hstands⟩ := h.inOrder.stands
  obtain rfl : address = a := by
    have hsame := haddress.symm.trans (htwin.left.pc.trans hpc)
    omega
  have hobeys (point : Point) (hpoint : At address point) :
      Obeys At g address point i.operation := by
    obtain ⟨j, hj, hobeys⟩ := hp.obeys address point hpoint
    rwa [Option.some.inj (hi.symm.trans hj)]
  have hknown (x : Foreign) : i.operation ≠ .foreign x := by
    obtain ⟨point, hpoint⟩ := hstands.exists_point
    exact (hobeys point hpoint).ne_foreign x
  have hknown' (x : Foreign) : i'.operation ≠ .foreign x := hcorresponds.ne_foreign (hknown x)
  obtain ⟨j, hj, hgoes⟩ := h.inOrder.goes_step (hprogram ▸ hp)
  obtain rfl := Option.some.inj (hcurrent.symm.trans hj)
  have hframed : Framed At g { m with steps := m.steps + 1 } ws fs :=
    h.inOrder.toFramed.congr rfl rfl rfl rfl
  have hagree := hframed.agree_execute hS htwin.addStep hsaved hpc hpc' hstands hobeys hcorresponds
    hrelated rfl rfl
  rw [← step_eq_execute hcurrent hknown, ← step_eq_execute hcurrent' hknown'] at hagree
  have hsp : V.sp = ws.length := htwin.left.sp.symm.trans h.inOrder.holds.sp
  refine ⟨i, hcurrent, (hagree.and_left fun _ m₁ hm₁ => hgoes.advances hm₁).imp
    (fun _ m₁ _ m₁' h₁ => ?_) fun m₁ m₁' h₁ => ?_⟩
  · obtain ⟨hmoves, ws₁, fs₁, hadvances⟩ := h₁
    rw [hsp, hadvances.turns.savedAfter_eq] at hmoves
    exact ⟨ws₁, fs₁, ⟨hadvances.inOrder, hmoves⟩, hadvances⟩
  · obtain ⟨sp, fp, htwin₁⟩ := h₁
    exact ⟨_, htwin₁, by rw [htwin.left.sp]⟩

/-- Machines that have just taken programs in are side by side. -/
theorem twin_fresh (hglobals : 0 ≤ S.program.globals) (hroom : S.program.globals ≤ S.size)
    (hsame : S.program'.globals = S.program.globals) {o o' : MachineOptions}
    (ho : o.stackSize = S.size) (ho' : o'.stackSize = S.size') :
    Twin S ⟨0, 0, S.program.globals, 0, SavedBy []⟩
      { fresh o S.program with sp := S.program.globals }
      { fresh o' S.program' with sp := S.program'.globals } where
  left := ⟨rfl, ho, by simp [fresh, emptyStack, ho], rfl, rfl, rfl⟩
  right := ⟨rfl, ho', by simp [fresh, emptyStack, ho'], rfl, hsame, rfl⟩
  running := rfl
  steps := rfl
  output := rfl
  sp_nonneg := hglobals
  sp_le := hroom
  words := fun k hk => by
    have hsizes := S.size_le
    simp only at hk
    refine ⟨0, 0, ?_, ?_, Stage.match_self (by simp [SavedBy]) 0⟩
    · simp only [fresh, emptyStack, Array.getElem?_replicate, ho]
      rw [if_pos (by omega)]
    · simp only [fresh, emptyStack, Array.getElem?_replicate, ho']
      rw [if_pos (by omega)]

/-- Programs side by side are taken in on both machines, or on neither. -/
theorem agree_load (hp : Disciplined S.program g At) (hS : S.Relocates)
    (hsize : m.options.stackSize = S.size) (hsize' : m'.options.stackSize = S.size') :
    Agree S (SameExcept fun _ => False)
      (fun _ m₁ _ m₁' => Mirrors S At g m₁ m₁' (List.replicate g 0) [] ∧ m₁.running = true)
      (loadProgram S.program m) (loadProgram S.program' m') := by
  have hsizes := S.size_le
  have hglobals := hp.globals
  have hglobals' := hS.globals
  have hload := loadProgram_eq_fresh S.program m
  have hload' := loadProgram_eq_fresh S.program' m'
  by_cases hroom : S.size < g
  · rw [if_pos (by omega)] at hload
    rw [hload]
    rcases Int.lt_or_eq_of_le hsizes with hlt | heq
    · exact .overflow hlt rfl
    · rw [if_pos (by omega), hglobals', hsize', ← heq, ← hsize] at hload'
      rw [hload']
      exact .fault ⟨rfl, rfl, rfl, rfl, fun k hk =>
        absurd hk (Int.not_lt.mpr (Int.natCast_nonneg k))⟩
  · rw [if_neg (by omega)] at hload hload'
    rcases hp.goes_load m with ⟨f, m₁, hm₁⟩ | ⟨m₁, hm₁, horder, -, -, hrunning⟩
    · rw [hload] at hm₁
      cases hm₁
    · rw [hload] at hm₁ ⊢
      cases hm₁
      rw [hload']
      exact .ok ⟨⟨horder, _, 0, 0, twin_fresh (by omega) (by omega) hglobals' hsize hsize', rfl,
        rfl, rfl, hS.start⟩, hrunning⟩

/-- What is known of machines after `n` steps side by side. -/
structure Reached (S : Stage) (At : Nat → Point → Prop) (g : Nat) (m : Machine) (n : Nat)
    (m₁ m₁' : Machine) : Prop where
  mirrors : ∃ ws fs, Mirrors S At g m₁ m₁' ws fs ∧
    ∀ k, SavedBy fs k → ReturnSlot S.program m n k
  halting : m₁.running = false → m₁.IsHalting

theorem SavedAfter.during {sp : Int} {k : Nat} (h : SavedAfter op fs sp k) :
    SavedDuring op fs sp k := by
  unfold SavedAfter at h
  split at h
  · obtain ⟨f, hf, hbase⟩ := h
    exact .inl ⟨f, List.mem_of_mem_tail hf, hbase⟩
  · exact h

/-- Machines side by side take a step side by side. -/
theorem Reached.step {n : Nat} {m₁ m₁' : Machine} (hp : Disciplined S.program g At)
    (hS : S.Relocates) (h : Reached S At g m n m₁ m₁') (hr : trial S.program n m = .ok () m₁) :
    Agree S (SameExcept (ReturnSlot S.program m (n + 1)))
      (fun _ m₂ _ m₂' => Reached S At g m (n + 1) m₂ m₂') (Machine.step m₁) (Machine.step m₁') := by
  obtain ⟨⟨ws, fs, hmirrors, hslots⟩, hhalting⟩ := h
  obtain ⟨i, hi, hagree⟩ := hmirrors.step hp hS
  have hnext : trial S.program (n + 1) m = Machine.step m₁ := by
    rw [trial_add_of_ok hr, stepMany_one]
  -- A word that the step does not drop holds a return address if it did before, or if the step is a
  -- call that pushes it.
  have hslot (k : Nat) (hk : SavedDuring i.operation fs m₁.sp k)
      (hlive : (k : Int) < (leave (trial S.program (n + 1)) m).sp) :
      ReturnSlot S.program m (n + 1) k := by
    rcases hk with hk | ⟨⟨target, hcall⟩, hsp⟩
    · exact (hslots k hk).succ hlive
    · exact returnSlot_of_call hr hi hcall hsp.symm hlive
  generalize hstep : Machine.step m₁ = r₁, Machine.step m₁' = r₁' at hagree ⊢
  rw [hstep] at hnext
  cases hagree with
  | @ok _ _ m₂ m₂' h₂ =>
    obtain ⟨ws₂, fs₂, hmirrors₂, hadvances⟩ := h₂
    refine .ok ⟨⟨ws₂, fs₂, hmirrors₂, fun k hk => hslot k ?_ ?_⟩, fun hstopped => ?_⟩
    · rw [hmirrors.inOrder.holds.sp]
      exact SavedAfter.during (hadvances.turns.savedAfter_eq ▸ hk)
    · obtain ⟨f, hf, hbase⟩ := hk
      have hle := hmirrors₂.inOrder.linked.base_le_length hf
      have hsp := hmirrors₂.inOrder.holds.sp
      simp only [leave, hnext]
      omega
    · have hrunning := hadvances.running
      have hhalts : m₁.IsHalting := by
        by_cases hhalt : i.operation = .halt
        · exact ⟨i, hi, hhalt⟩
        · rw [if_neg hhalt, hstopped] at hrunning
          exact hhalting hrunning.symm
      exact (hhalts.step hstep).1
  | fault h₂ =>
    obtain ⟨V, htwin, hsaved⟩ := h₂
    refine .fault ((SameExcept.of_twin htwin).imp fun k hk hk' => hslot k (hsaved ▸ hk') ?_)
    simpa only [leave, hnext] using hk
  | overflow hlt hcategory => exact .overflow hlt hcategory

/-- Relocated programs go side by side for as many steps as they take. -/
theorem agree_trial (hp : Disciplined S.program g At) (hS : S.Relocates)
    (hsize : m.options.stackSize = S.size) (hsize' : m'.options.stackSize = S.size') (n : Nat) :
    Agree S (SameExcept (ReturnSlot S.program m n))
      (fun _ m₁ _ m₁' => Reached S At g m n m₁ m₁') (trial S.program n m)
      (trial S.program' n m') := by
  induction n with
  | zero =>
    refine ((agree_load hp hS hsize hsize').imp (fun _ m₁ _ m₁' h₁ => ?_) fun _ _ h₁ => ?_).bind
      fun _ _ _ _ h₁ => .ok h₁
    · refine ⟨⟨_, _, h₁.1, fun k hk => ?_⟩, fun hstopped => ?_⟩
      · obtain ⟨f, hf, -⟩ := hk
        cases hf
      · rw [h₁.2] at hstopped
        cases hstopped
    · exact h₁.imp fun _ _ => False.elim
  | succ n ih =>
    generalize hr : trial S.program n m = r, hr' : trial S.program' n m' = r' at ih
    cases ih with
    | ok h =>
      rw [trial_add_of_ok hr, trial_add_of_ok hr', stepMany_one]
      exact h.step hp hS hr
    | fault h =>
      have herror := trial_add_of_error (n := 1) hr
      rw [herror, trial_add_of_error hr']
      refine .fault (h.imp fun k hk hslot => hslot.succ ?_)
      simpa only [leave, herror] using hk
    | overflow hlt hcategory =>
      rw [trial_add_of_error hr]
      exact .overflow hlt hcategory

end Discipline

end StackLang
