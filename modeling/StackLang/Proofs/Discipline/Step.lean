import StackLang.Proofs.Discipline
import StackLang.Proofs.Runs

/-!
# Steps of a machine in order

Each operation takes a machine in order to a machine in order or to a fault. What it does to the
frames depends on the operation alone: a call opens a frame, a return closes the innermost one, and
everything else leaves the frames as they are.
-/

namespace StackLang.Discipline

open Machine

variable {At : Nat → Point → Prop} {g : Nat} {m m₁ : Machine} {ws us : List Int}
  {fs : List Frame} {i : Instruction} {v : Int} {address : Nat} {depth : Int}

/-- A part of a step comes to a fault. -/
def IsFault (r : EStateM.Result Stop Machine Unit) : Prop := ∃ f m', r = .error (.fault f) m'

/-- A part of a step stays in the innermost frame, or faults. -/
def Passes (At : Nat → Point → Prop) (g : Nat) (m : Machine) (ws : List Int) (fs : List Frame)
    (r : EStateM.Result Stop Machine Unit) : Prop :=
  IsFault r ∨ ∃ m' ws', r = .ok () m' ∧ InOrder At g m' ws' fs ∧ m.Keeps m' ∧
    ∀ k, g ≤ k → k < bottom fs → ws'[k]? = ws[k]?

theorem Passes.of_ok {r : EStateM.Result Stop Machine Unit} {m' : Machine} {ws' : List Int}
    (hr : r = .ok () m') (horder : InOrder At g m' ws' fs) (hkeeps : m.Keeps m')
    (hkept : ∀ k, g ≤ k → k < bottom fs → ws'[k]? = ws[k]?) : Passes At g m ws fs r :=
  .inr ⟨m', ws', hr, horder, hkeeps, hkept⟩

/-- Dropping words above the variables first makes no difference. -/
theorem Passes.after {r : EStateM.Result Stop Machine Unit} (h : Passes At g m₁ ws fs r)
    (hkeeps : m.Keeps m₁) (hfloor : floor g fs ≤ ws.length) : Passes At g m (ws ++ us) fs r := by
  rcases h with hfault | ⟨m', ws', hr, horder, hkeeps', hkept⟩
  · exact .inl hfault
  · refine .of_ok hr horder (hkeeps.trans hkeeps') fun k hg hk => ?_
    have hlt : k < ws.length := Nat.lt_of_lt_of_le hk (Nat.le_trans (bottom_le_floor g fs) hfloor)
    rw [hkept k hg hk, List.getElem?_append_left hlt]

/-! ## Operations inside a frame -/

section Within

variable (h : Framed At g m ws fs) (hpc : m.pc = address)
  (hlength : (ws.length : Int) = floor g fs + depth)

include h hpc hlength

/-- Pushing a word and going on. -/
theorem Framed.passes_push (hdepth : 0 ≤ depth)
    (hnext : At (address + 1) (.within (region fs) (depth + 1))) (hv : Word.IsWord v) :
    Passes At g m ws fs ((push i v >>= fun _ => advance) m) := by
  by_cases hroom : (ws.length : Int) < m.options.stackSize
  · have hholds : Holds
        { m with stack := m.stack.setIfInBounds ws.length v, sp := m.sp + 1, pc := m.pc + 1 }
        (ws ++ [v]) := (h.holds.push v hroom).congr rfl rfl rfl
    have hframed := h.append hholds rfl fun w hw => List.mem_singleton.mp hw ▸ hv
    refine .of_ok (bind_of_ok (push_of_holds h.holds hroom))
      ⟨hframed, address + 1, ?_, .within hnext (by omega) ?_⟩ ⟨rfl, rfl, rfl⟩ fun k hg hk => ?_
    · change m.pc + 1 = _
      rw [hpc]
      rfl
    · rw [List.length_append, List.length_singleton]
      omega
    · have hbottom := bottom_le_floor g fs
      exact List.getElem?_append_left (by omega)
  · exact .inl ⟨_, _, bind_of_error (push_overflows h.holds (Int.not_lt.mp hroom))⟩

/-- Pushing a variable. An address below the stack makes a fault. -/
theorem Framed.passes_load {place : Int} (hdepth : 0 ≤ depth)
    (hplace : ∀ k : Nat, place = k → IsVariable g fs k)
    (hnext : At (address + 1) (.within (region fs) (depth + 1))) :
    Passes At g m ws fs (load i place m) := by
  by_cases hnonneg : 0 ≤ place
  · obtain ⟨k, rfl⟩ := Int.eq_ofNat_of_zero_le hnonneg
    have hvariable := hplace k rfl
    have hlt : k < ws.length := by
      have hfloor := hvariable.lt_floor
      omega
    have hword := List.getElem?_eq_getElem hlt
    rw [load_of_holds h.holds hword]
    exact h.passes_push hpc hlength hdepth hnext (h.data k _ hword hvariable.not_saves)
  · exact .inl ⟨_, _, bind_of_error (checkLive_of_negative (Int.not_le.mp hnonneg))⟩

/-- Popping a word into a variable. -/
theorem Framed.passes_store {place : Int} (hdepth : 1 ≤ depth)
    (hplace : ∀ k : Nat, place = k → IsVariable g fs k)
    (hnext : At (address + 1) (.within (region fs) (depth - 1))) :
    Passes At g m ws fs (store i place m) := by
  obtain ⟨us, v, rfl, hv, hfloor⟩ := h.exists_top (by omega)
  rw [List.length_append, List.length_singleton] at hlength
  by_cases hnonneg : 0 ≤ place
  · obtain ⟨k, rfl⟩ := Int.eq_ofNat_of_zero_le hnonneg
    have hvariable := hplace k rfl
    have hlt : k < us.length := Nat.lt_of_lt_of_le hvariable.lt_floor hfloor
    have hframed := (h.dropTop hfloor).set hvariable hv
    refine .of_ok (store_of_holds h.holds hlt)
      ⟨hframed.congr rfl rfl rfl rfl, address + 1, ?_, .within hnext (by omega) ?_⟩
      ⟨rfl, rfl, rfl⟩ fun j hg hj => ?_
    · change m.pc + 1 = _
      rw [hpc]
      rfl
    · rw [List.length_set]
      omega
    · -- what is written is a global variable or one of the innermost frame
      have hne : k ≠ j := by
        have hle := hvariable.bottom_le
        omega
      have hbottom := bottom_le_floor g fs
      rw [List.getElem?_set_ne hne, List.getElem?_append_left (by omega)]
  · have hchecked := checkLive_of_negative (i := i) (m := { m with sp := us.length })
      (Int.not_le.mp hnonneg)
    exact .inl ⟨_, _, (bind_of_ok (pop_of_holds h.holds)).trans (bind_of_error hchecked)⟩

/-- Replacing the topmost words by one. -/
theorem Framed.passes_replace {vs : List Int} (hws : ws = us ++ vs)
    (hfloor : floor g fs ≤ us.length)
    (hnext : At (address + 1) (.within (region fs) (depth - vs.length + 1)))
    (hv : Word.IsWord v) :
    Passes At g m ws fs ((push i v >>= fun _ => advance) { m with sp := us.length }) := by
  subst hws
  rw [List.length_append] at hlength
  have hframed := h.take fun f hf => Nat.le_trans (h.linked.base_le_floor hf) hfloor
  have hlength' : (us.length : Int) = floor g fs + (depth - vs.length) := by omega
  have hpasses := hframed.passes_push (i := i) hpc hlength' (by omega) hnext hv
  exact hpasses.after ⟨rfl, rfl, rfl⟩ hfloor

theorem Framed.passes_negate (hdepth : 1 ≤ depth)
    (hnext : At (address + 1) (.within (region fs) depth)) :
    Passes At g m ws fs ((pop i >>= fun v => push i (Word.wrap (-v)) >>= fun _ => advance) m) := by
  obtain ⟨us, v, hws, hv, hfloor⟩ := h.exists_top (by omega)
  have hholds := h.holds
  rw [hws] at hholds
  rw [bind_of_ok (pop_of_holds hholds)]
  refine h.passes_replace hpc hlength hws hfloor ?_ (Word.isWord_wrap _)
  have hdifference : depth - (([v] : List Int).length : Int) + 1 = depth := by
    rw [List.length_singleton]
    omega
  rwa [hdifference]

theorem Framed.passes_compute {op : Operator} (hdepth : 2 ≤ depth)
    (hnext : At (address + 1) (.within (region fs) (depth - 1))) :
    Passes At g m ws fs (compute i op m) := by
  obtain ⟨us, b, rfl, hb, hfloor⟩ := h.exists_top (by omega)
  have hlength' := hlength
  rw [List.length_append, List.length_singleton] at hlength'
  have hframed := h.dropTop hfloor
  obtain ⟨us, a, rfl, ha, hfloor'⟩ := hframed.exists_top (by omega)
  rw [compute, bind_of_ok (pop_of_holds h.holds), bind_of_ok (pop_of_holds hframed.holds)]
  cases hresult : op.compute? a b with
  | none => exact .inl ⟨_, _, bind_of_error rfl⟩
  | some r =>
    have hsplit : us ++ [a] ++ [b] = us ++ [a, b] := by simp
    refine h.passes_replace hpc hlength hsplit hfloor' ?_ (Operator.isWord_of_compute? hresult)
    have hdifference : depth - (([a, b] : List Int).length : Int) + 1 = depth - 1 := by
      simp only [List.length_cons, List.length_nil]
      omega
    rwa [hdifference]

theorem Framed.passes_print (hdepth : 1 ≤ depth)
    (hnext : At (address + 1) (.within (region fs) depth)) :
    Passes At g m ws fs
      ((top i >>= fun v => writeLine (Text.decimal v) >>= fun _ => advance) m) := by
  obtain ⟨us, v, hws, hv, hfloor⟩ := h.exists_top (by omega)
  have hholds := h.holds
  rw [hws] at hholds
  have hline : writeLine (Text.decimal v) m =
      .ok () { m with output := m.output.push (Text.decimal v) } := rfl
  refine .of_ok ((bind_of_ok (top_of_holds hholds)).trans (bind_of_ok hline))
    ⟨h.congr rfl rfl rfl rfl, address + 1, ?_, .within hnext (by omega) hlength⟩ ⟨rfl, rfl, rfl⟩
    fun _ _ _ => rfl
  change m.pc + 1 = _
  rw [hpc]
  rfl

omit hpc in
/-- Going on elsewhere. -/
theorem Framed.passes_goto (hdepth : 0 ≤ depth) {target : Nat}
    (hgoal : At target (.within (region fs) depth)) {r : EStateM.Result Stop Machine Unit}
    (hr : r = .ok () { m with pc := target }) : Passes At g m ws fs r :=
  .of_ok hr ⟨h.congr rfl rfl rfl rfl, target, rfl, .within hgoal hdepth hlength⟩ ⟨rfl, rfl, rfl⟩
    fun _ _ _ => rfl

omit hpc in
/-- Going on elsewhere after a word was popped. -/
theorem Framed.passes_drop (hws : ws = us ++ [v]) (hfloor : floor g fs ≤ us.length) {target : Nat}
    (hgoal : At target (.within (region fs) (depth - 1))) {r : EStateM.Result Stop Machine Unit}
    (hr : r = .ok () { m with sp := us.length, pc := target }) : Passes At g m ws fs r := by
  subst hws
  rw [List.length_append, List.length_singleton] at hlength
  have hlength' : (us.length : Int) = floor g fs + (depth - 1) := by omega
  exact ((h.dropTop hfloor).passes_goto hlength' (by omega) hgoal hr).after ⟨rfl, rfl, rfl⟩ hfloor

theorem Framed.passes_pop (hdepth : 1 ≤ depth)
    (hnext : At (address + 1) (.within (region fs) (depth - 1))) :
    Passes At g m ws fs ((pop i >>= fun _ => advance) m) := by
  obtain ⟨us, v, hws, hv, hfloor⟩ := h.exists_top (by omega)
  have hholds := h.holds
  rw [hws] at hholds
  refine h.passes_drop hlength hws hfloor hnext ((bind_of_ok (pop_of_holds hholds)).trans ?_)
  rw [advance, hpc]
  rfl

theorem Framed.passes_jumpIfZero {target : Nat} (hdepth : 1 ≤ depth)
    (hgoal : At target (.within (region fs) (depth - 1))) (htarget : target < m.program.size)
    (hnext : At (address + 1) (.within (region fs) (depth - 1))) :
    Passes At g m ws fs
      ((pop i >>= fun v => if v = 0 then jump i target else advance) m) := by
  obtain ⟨us, v, hws, hv, hfloor⟩ := h.exists_top (by omega)
  have hholds := h.holds
  rw [hws] at hholds
  rw [bind_of_ok (pop_of_holds hholds)]
  by_cases hzero : v = 0
  · rw [if_pos hzero]
    refine h.passes_drop hlength hws hfloor hgoal (jump_of_target ?_)
    exact ⟨Int.natCast_nonneg _, Int.ofNat_lt.mpr htarget⟩
  · rw [if_neg hzero]
    refine h.passes_drop hlength hws hfloor hnext ?_
    rw [advance, hpc]
    rfl

end Within

/-! ## Calls and returns -/

/-- What a step does to the frames. -/
def Turns (At : Nat → Point → Prop) (op : Operation) (m : Machine) (ws : List Int)
    (fs : List Frame) (m' : Machine) (ws' : List Int) (fs' : List Frame) : Prop :=
  match op with
  | .call target => ws <+: ws' ∧ ∃ f, fs' = f :: fs ∧ f.base = ws.length + 2 ∧
      m.pc + 1 = f.returnTo ∧ ∃ entry : Nat, target = entry ∧
        At entry (.entrance f.parameters f.locals)
  | .giveBack count => ∃ f, fs = f :: fs' ∧ count = f.parameters ∧ m'.pc = f.returnTo ∧
      ∃ us v, ws = us ++ [v] ∧ f.base ≤ us.length ∧ ws' = us.take f.bottom ++ [v]
  | _ => fs' = fs

/-- What a step of a machine in order leads to. -/
structure Advances (At : Nat → Point → Prop) (g : Nat) (op : Operation) (m : Machine)
    (ws : List Int) (fs : List Frame) (m' : Machine) (ws' : List Int) (fs' : List Frame) :
    Prop where
  inOrder : InOrder At g m' ws' fs'
  turns : Turns At op m ws fs m' ws' fs'
  kept : ∀ k, g ≤ k → k < bottom fs → ws'[k]? = ws[k]?
  options : m'.options = m.options
  program : m'.program = m.program
  running : m'.running = if op = .halt then false else m.running

/-- A step leads on, or faults. -/
def Goes (At : Nat → Point → Prop) (g : Nat) (op : Operation) (m : Machine) (ws : List Int)
    (fs : List Frame) (r : EStateM.Result Stop Machine Unit) : Prop :=
  IsFault r ∨ ∃ m' ws' fs', r = .ok () m' ∧ Advances At g op m ws fs m' ws' fs'

theorem Passes.goes {r : EStateM.Result Stop Machine Unit} {op : Operation}
    (h : Passes At g m ws fs r) (hhalt : op ≠ .halt)
    (hturns : ∀ m' ws', Turns At op m ws fs m' ws' fs) : Goes At g op m ws fs r := by
  rcases h with hfault | ⟨m', ws', hr, horder, hkeeps, hkept⟩
  · exact .inl hfault
  · refine .inr ⟨m', ws', fs, hr, horder, hturns m' ws', hkept, hkeeps.options, hkeeps.program, ?_⟩
    rw [if_neg hhalt, hkeeps.running]

theorem Goes.of_addStep {r : EStateM.Result Stop Machine Unit} {op : Operation} {n : Nat}
    (h : Goes At g op { m with steps := n } ws fs r) : Goes At g op m ws fs r := by
  rcases h with hfault | ⟨m', ws', fs', hr, horder, hturns, hkept, hoptions, hprogram, hrunning⟩
  · exact .inl hfault
  · exact .inr ⟨m', ws', fs', hr, horder, hturns, hkept, hoptions, hprogram, hrunning⟩

/-- A call opens a frame right above the words there are. -/
theorem Framed.goes_call {target parameters locals : Nat} (h : Framed At g m ws fs)
    (hpc : m.pc = address) (hfloor : floor g fs ≤ ws.length)
    (hgoal : At target (.entrance parameters locals)) (htarget : target < m.program.size)
    (hlinked : ∀ ws' : List Int, Linked At g ws' fs →
      ws'[ws.length]? = some ((address + 1 : Nat) : Int) →
      ws'[ws.length + 1]? = some (base fs : Int) →
      Linked At g ws' (⟨parameters, locals, ws.length + 2, address + 1⟩ :: fs)) :
    Goes At g (.call target) m ws fs (call i target m) := by
  have htarget' : 0 ≤ (target : Int) ∧ (target : Int) < m.program.size :=
    ⟨Int.natCast_nonneg _, Int.ofNat_lt.mpr htarget⟩
  have hnext : m.pc + 1 = ((address + 1 : Nat) : Int) := by
    rw [hpc]
    rfl
  by_cases hroom : (ws.length : Int) + 2 ≤ m.options.stackSize
  · obtain ⟨m', hm', hholds, hfp, hpc', hkeeps, -⟩ :=
      call_of_holds (i := i) h.holds htarget' hroom
    rw [hnext, h.fp, List.append_assoc] at hholds
    have hleft {k : Nat} (hk : k < ws.length) :
        (ws ++ ([((address + 1 : Nat) : Int)] ++ [(base fs : Int)]))[k]? = ws[k]? :=
      List.getElem?_append_left hk
    have hrest : Linked At g (ws ++ ([((address + 1 : Nat) : Int)] ++ [(base fs : Int)])) fs := by
      refine h.linked.congr fun f hf k hsaves => hleft ?_
      have hle := h.linked.base_le_length hf
      rcases hsaves with hsaves | hsaves <;> omega
    refine .inr ⟨m', _, ⟨parameters, locals, ws.length + 2, address + 1⟩ :: fs, hm',
      ⟨⟨hholds, hfp, hlinked _ hrest (by simp) (by simp), ?_⟩, target, hpc',
        .entrance hgoal (by simp)⟩,
      ⟨List.prefix_append _ _, _, rfl, rfl, hnext, target, rfl, hgoal⟩,
      fun k hg hk => hleft ?_, hkeeps.options, hkeeps.program, hkeeps.running⟩
    · intro k v hv hfree
      by_cases hk : k < ws.length
      · rw [hleft hk] at hv
        exact h.data k v hv fun f hf => hfree f (List.mem_cons_of_mem _ hf)
      · -- above the words there are only the two that the call saves
        have hlt := (List.getElem?_eq_some_iff.mp hv).1
        simp only [List.length_append, List.length_singleton] at hlt
        refine absurd ?_ (hfree _ List.mem_cons_self)
        simp only [Frame.Saves]
        omega
    · exact Nat.lt_of_lt_of_le hk (Nat.le_trans (bottom_le_floor g fs) hfloor)
  · obtain ⟨m', hm', -⟩ := call_overflows (i := i) h.holds htarget' (Int.not_le.mp hroom)
    exact .inl ⟨_, m', hm'⟩

/-- The words that the innermost frame has saved. -/
theorem Linked.saved {f : Frame} (h : Linked At g ws (f :: fs)) :
    ws[f.base - 2]? = some (f.returnTo : Int) ∧ ws[f.base - 1]? = some (base fs : Int) := by
  cases h with
  | call rest next depth_nonneg base_eq returnTo caller => exact ⟨returnTo, caller⟩
  | begin next base_eq returnTo caller => exact ⟨returnTo, caller⟩

/-- Without its innermost frame and with the value in the place of its arguments, the stack is as
the address to return to expects it. -/
theorem Linked.returns {f : Frame} {ws' : List Int} (h : Linked At g ws (f :: fs))
    (hcount : f.parameters + 2 ≤ f.base) (hlength : ws'.length = f.bottom + 1)
    (hkept : ∀ k < f.bottom, ws'[k]? = ws[k]?) :
    Linked At g ws' fs ∧ Stands At g ws' fs f.returnTo := by
  rw [Frame.bottom] at hlength hkept
  cases h with
  | call rest next depth_nonneg base_eq returnTo caller =>
    refine ⟨rest.congr fun e he k hsaves => hkept k ?_, .within next (by omega) (by omega)⟩
    have hfloor := rest.base_le_floor he
    rcases hsaves with hsaves | hsaves <;> omega
  | begin next base_eq returnTo caller =>
    refine ⟨.nil, .exit next fun hempty => ?_⟩
    rw [hempty, List.length_nil] at hlength
    omega

theorem exists_append_of_getElem? {us : List Int} {k : Nat} {a b : Int}
    (ha : us[k]? = some a) (hb : us[k + 1]? = some b) :
    ∃ rest, us = us.take k ++ [a] ++ [b] ++ rest := by
  obtain ⟨hlt, hb⟩ := List.getElem?_eq_some_iff.mp hb
  obtain ⟨hlt', ha⟩ := List.getElem?_eq_some_iff.mp ha
  refine ⟨us.drop (k + 2), ?_⟩
  rw [← ha, ← hb, List.append_assoc, List.append_assoc, List.singleton_append,
    List.singleton_append, ← List.drop_eq_getElem_cons hlt, ← List.drop_eq_getElem_cons hlt',
    List.take_append_drop]

/-- Right below the innermost frame are the two words that its call has saved. -/
theorem Framed.exists_saved {f : Frame} (h : Framed At g m (us ++ [v]) (f :: fs))
    (hbase : f.base ≤ us.length) :
    ∃ rest, us = us.take (f.base - 2) ++ [(f.returnTo : Int)] ++ [(base fs : Int)] ++ rest ∧
      m.fp = ((us.take (f.base - 2) ++ [(f.returnTo : Int)] ++ [(base fs : Int)]).length : Int) := by
  have hglobals := h.linked.globals_lt_base List.mem_cons_self
  obtain ⟨hreturn, hcaller⟩ := h.linked.saved
  rw [List.getElem?_append_left (by omega)] at hreturn hcaller
  have hsecond : us[f.base - 2 + 1]? = some (base fs : Int) := by
    rwa [show f.base - 2 + 1 = f.base - 1 by omega]
  obtain ⟨rest, hsplit⟩ := exists_append_of_getElem? hreturn hsecond
  refine ⟨rest, hsplit, ?_⟩
  rw [h.fp, base]
  simp only [List.length_append, List.length_singleton, List.length_take]
  omega

/-- What a return leaves are words, except for what the open calls have saved. -/
theorem Framed.data_returned {f : Frame} (h : Framed At g m (us ++ [v]) (f :: fs))
    (hv : Word.IsWord v) (hbottom : (us.take f.bottom).length = f.bottom)
    (hkept : ∀ k < f.bottom, (us.take f.bottom ++ [v])[k]? = (us ++ [v])[k]?) (k : Nat) (w : Int)
    (hw : (us.take f.bottom ++ [v])[k]? = some w) (hfree : ∀ e ∈ fs, ¬e.Saves k) :
    Word.IsWord w := by
  by_cases hk : k < f.bottom
  · rw [hkept k hk] at hw
    refine h.data k w hw fun e he => ?_
    rcases List.mem_cons.mp he with rfl | he
    · rw [Frame.bottom] at hk
      rintro (hsaves | hsaves) <;> omega
    · exact hfree e he
  · have hlt := (List.getElem?_eq_some_iff.mp hw).1
    rw [List.length_append, List.length_singleton] at hlt
    have hlast : k = (us.take f.bottom).length := by omega
    rw [hlast, List.getElem?_concat_length] at hw
    exact Option.some.inj hw ▸ hv

/-- A return closes the innermost frame. It faults if the first call passed too few arguments. -/
theorem Framed.goes_giveBack {f : Frame} (h : Framed At g m ws (f :: fs))
    (hfloor : floor g (f :: fs) < ws.length) :
    Goes At g (.giveBack f.parameters) m ws (f :: fs) (giveBack i f.parameters m) := by
  obtain ⟨us, v, rfl, hv, hfloor⟩ := h.exists_top hfloor
  have hbase : f.base ≤ us.length := Nat.le_trans (Nat.le_add_right _ _) hfloor
  obtain ⟨rest, hsplit, hfp⟩ := h.exists_saved hbase
  have hholds := h.holds
  rw [hsplit] at hholds
  have htake : (us.take (f.base - 2)).length = f.base - 2 :=
    List.length_take_of_le (by omega)
  by_cases hcount : f.parameters + 2 ≤ f.base
  · have hle : f.bottom ≤ f.base - 2 := Nat.sub_le _ _
    have hbottom : (us.take f.bottom).length = f.bottom := List.length_take_of_le (by omega)
    have hparts : us.take (f.base - 2) =
        us.take f.bottom ++ (us.take (f.base - 2)).drop f.bottom := by
      have hagain := List.take_append_drop f.bottom (us.take (f.base - 2))
      rw [List.take_take, Nat.min_eq_left hle] at hagain
      exact hagain.symm
    rw [hparts] at hholds hfp
    have htaken : (f.parameters : Int) = ((us.take (f.base - 2)).drop f.bottom).length := by
      rw [List.length_drop, htake, Frame.bottom]
      omega
    have hkept (k : Nat) (hk : k < f.bottom) :
        (us.take f.bottom ++ [v])[k]? = (us ++ [v])[k]? := by
      rw [List.getElem?_append_left (by omega), List.getElem?_take_of_lt hk,
        List.getElem?_append_left (by omega)]
    have hlength : (us.take f.bottom ++ [v]).length = f.bottom + 1 := by
      rw [List.length_append, List.length_singleton, hbottom]
    obtain ⟨hlinked, hstands⟩ := h.linked.returns hcount hlength hkept
    have hroom : ((us.take f.bottom).length : Int) < m.options.stackSize := by
      have hfits := h.holds.fits
      simp only [List.length_append, List.length_singleton] at hfits
      omega
    have hbelow := hholds.take.take.take.take.take
    refine .inr ⟨_, us.take f.bottom ++ [v], fs, giveBack_of_holds hholds hfp htaken,
      ⟨⟨(hbelow.push v hroom).congr rfl rfl rfl, rfl, hlinked, h.data_returned hv hbottom hkept⟩,
        f.returnTo, rfl, hstands⟩, ⟨f, rfl, rfl, rfl, us, v, rfl, hbase, rfl⟩,
      fun k _ hk => hkept k hk, rfl, rfl, rfl⟩
  · have hglobals := h.linked.globals_lt_base List.mem_cons_self
    have hfew : ((us.take (f.base - 2)).length : Int) < f.parameters := by omega
    obtain ⟨m', hm'⟩ := giveBack_of_few (i := i) hholds hfp hfew
    exact .inl ⟨_, m', hm'⟩

/-- Entering a function puts its variables on top. -/
theorem Framed.passes_enter {f : Frame} (h : Framed At g m ws (f :: fs)) (hpc : m.pc = address)
    (hlength : ws.length = f.base)
    (hnext : At (address + 1) (.within (.inside f.parameters f.locals) 0)) :
    Passes At g m ws (f :: fs) (enter i f.locals m) := by
  by_cases hroom : (ws.length : Int) + f.locals ≤ m.options.stackSize
  · obtain ⟨m', hm', hholds, hfp, hpc', hkeeps, -⟩ := enter_of_holds (i := i) f.locals h.holds hroom
    have hzeros : ∀ v ∈ List.replicate f.locals (0 : Int), Word.IsWord v := by
      intro v hv
      rw [List.eq_of_mem_replicate hv]
      decide
    refine .of_ok hm' ⟨h.append hholds hfp hzeros, address + 1, ?_,
      .within hnext (Int.le_refl 0) ?_⟩ hkeeps fun k hg hk => ?_
    · rw [hpc', hpc]
      rfl
    · rw [List.length_append, List.length_replicate, floor]
      omega
    · have hbottom := f.bottom_le_base
      exact List.getElem?_append_left (by rw [hlength]; exact Nat.lt_of_lt_of_le hk hbottom)
  · exact .inl ⟨_, _, enter_overflows f.locals h.holds (Int.not_le.mp hroom)⟩

/-! ## Steps -/

theorem Disciplined.lt_size {p : Program} {point : Point} (h : Disciplined p g At)
    (hpoint : At address point) : address < p.size := by
  obtain ⟨i, hi, -⟩ := h.obeys address point hpoint
  exact (Array.getElem?_eq_some_iff.mp hi).1

/-- An operation within a region that is neither a call nor a return. -/
theorem Framed.passes_within {op : Operation} (hp : Disciplined m.program g At)
    (h : Framed At g m ws fs) (hpc : m.pc = address)
    (hlength : (ws.length : Int) = floor g fs + depth) (hdepth : 0 ≤ depth)
    (hobeys : Obeys At g address (.within (region fs) depth) op)
    (hcall : ∀ target, op ≠ .call target) (hreturn : ∀ count, op ≠ .giveBack count)
    (hop : i.operation = op) : Passes At g m ws fs (execute i m) := by
  have hoffset {offset : Int} (hknown : (region fs).HasOffset offset) (k : Nat)
      (hk : m.fp + offset = k) : IsVariable g fs k := by
    rw [h.fp] at hk
    exact h.linked.isVariable_offset hknown hk
  have hslot {slot : Nat} (hknown : slot < g) (k : Nat) (hk : (slot : Int) = k) :
      IsVariable g fs k := by
    obtain rfl : slot = k := by omega
    exact h.linked.isVariable_global hknown
  unfold execute
  rw [hop]
  generalize hregion : region fs = r at hobeys
  cases hobeys with
  | call | begin | missing => exact absurd rfl (hcall _)
  | giveBack => exact absurd rfl (hreturn _)
  | push v next =>
    subst hregion
    exact h.passes_push hpc hlength hdepth next (Word.isWord_wrap v)
  | load known next =>
    subst hregion
    exact h.passes_load hpc hlength hdepth (hoffset known) next
  | store known enough next =>
    subst hregion
    exact h.passes_store hpc hlength enough (hoffset known) next
  | loadGlobal known next =>
    subst hregion
    exact h.passes_load hpc hlength hdepth (hslot known) next
  | storeGlobal known enough next =>
    subst hregion
    exact h.passes_store hpc hlength enough (hslot known) next
  | pop enough next =>
    subst hregion
    exact h.passes_pop hpc hlength enough next
  | compute op enough next =>
    subst hregion
    exact h.passes_compute hpc hlength enough next
  | negate enough next =>
    subst hregion
    exact h.passes_negate hpc hlength enough next
  | print enough next =>
    subst hregion
    exact h.passes_print hpc hlength enough next
  | jump goal =>
    subst hregion
    exact h.passes_goto hlength hdepth goal
      (jump_of_target ⟨Int.natCast_nonneg _, Int.ofNat_lt.mpr (hp.lt_size goal)⟩)
  | jumpIfZero enough goal next =>
    subst hregion
    exact h.passes_jumpIfZero hpc hlength enough goal (hp.lt_size goal) next

/-- A call within a region opens a frame, or there is nothing to call. -/
theorem Framed.goes_call_within {target : Int} (hp : Disciplined m.program g At)
    (h : Framed At g m ws fs) (hpc : m.pc = address)
    (hlength : (ws.length : Int) = floor g fs + depth) (hdepth : 0 ≤ depth)
    (hobeys : Obeys At g address (.within (region fs) depth) (.call target)) :
    Goes At g (.call target) m ws fs (call i target m) := by
  have hfloor : floor g fs ≤ ws.length := by omega
  generalize hregion : region fs = r at hobeys
  cases hobeys with
  | @call _ _ target parameters locals goal arguments next =>
    subst hregion
    refine h.goes_call hpc hfloor goal (hp.lt_size goal) fun ws' hrest hreturn hcaller => ?_
    refine .call hrest next (by omega) ?_ hreturn hcaller
    simp only [Int.natCast_add]
    omega
  | begin goal next =>
    obtain rfl : fs = [] := by
      cases fs with
      | nil => rfl
      | cons f fs => cases hregion
    refine h.goes_call hpc hfloor goal (hp.lt_size goal) fun ws' _ hreturn hcaller => ?_
    refine .begin next ?_ hreturn hcaller
    rw [floor] at hlength
    change ws.length + 2 = g + 2
    omega
  | missing negative => exact .inl ⟨_, _, call_of_negative negative⟩

/-- An operation that may stand at a point within a region. -/
theorem Framed.goes_within {op : Operation} (hp : Disciplined m.program g At)
    (h : Framed At g m ws fs) (hpc : m.pc = address)
    (hlength : (ws.length : Int) = floor g fs + depth) (hdepth : 0 ≤ depth)
    (hobeys : Obeys At g address (.within (region fs) depth) op) (hop : i.operation = op) :
    Goes At g op m ws fs (execute i m) := by
  cases op with
  | call target =>
    unfold execute
    rw [hop]
    exact h.goes_call_within hp hpc hlength hdepth hobeys
  | giveBack count =>
    unfold execute
    rw [hop]
    generalize hregion : region fs = r at hobeys
    cases hobeys with
    | giveBack enough =>
      cases fs with
      | nil => cases hregion
      | cons f fs =>
        cases hregion
        exact h.goes_giveBack (by omega)
  | halt =>
    generalize region fs = r at hobeys
    cases hobeys
  | _ =>
    have hpasses := h.passes_within hp hpc hlength hdepth hobeys (by simp) (by simp) hop
    exact hpasses.goes Operation.noConfusion fun _ _ => rfl

theorem Obeys.ne_foreign {point : Point} {op : Operation} (h : Obeys At g address point op)
    (x : Foreign) : op ≠ .foreign x := by
  rintro rfl
  cases h

/-- An operation that may stand at the point of a machine in order. -/
theorem Framed.goes_execute {op : Operation} (h : Framed At g m ws fs)
    (hp : Disciplined m.program g At) (hpc : m.pc = address) (hstands : Stands At g ws fs address)
    (hobeys : ∀ point, At address point → Obeys At g address point op) (hop : i.operation = op) :
    Goes At g op m ws fs (execute i m) := by
  cases hstands with
  | within point depth_nonneg length_eq =>
    exact h.goes_within hp hpc length_eq depth_nonneg (hobeys _ point) hop
  | entrance point length_eq =>
    cases hobeys _ point with
    | enter next =>
      unfold execute
      rw [hop]
      exact (h.passes_enter hpc length_eq next).goes Operation.noConfusion fun _ _ => rfl
  | exit point some =>
    cases hobeys _ point with
    | halt =>
      unfold execute
      rw [hop]
      exact .inr ⟨_, ws, [], rfl, ⟨h.congr rfl rfl rfl rfl, address, hpc, .exit point some⟩, rfl,
        fun _ _ _ => rfl, rfl, rfl, rfl⟩

/-- A step of a machine in order leads to a machine in order, or faults. -/
theorem InOrder.goes_step (hp : Disciplined m.program g At) (h : InOrder At g m ws fs) :
    ∃ i, m.current? = some i ∧ Goes At g i.operation m ws fs (step m) := by
  obtain ⟨address, hpc, hstands⟩ := h.stands
  obtain ⟨point, hpoint⟩ : ∃ point, At address point := by
    cases hstands with
    | within point => exact ⟨_, point⟩
    | entrance point => exact ⟨_, point⟩
    | exit point => exact ⟨_, point⟩
  obtain ⟨i, hi, hobeys⟩ := hp.obeys address point hpoint
  have hall (point' : Point) (hpoint' : At address point') :
      Obeys At g address point' i.operation := by
    obtain ⟨j, hj, hobeys'⟩ := hp.obeys address point' hpoint'
    rwa [Option.some.inj (hi.symm.trans hj)]
  have hcurrent : m.current? = some i := (current?_of_pc hpc).trans hi
  refine ⟨i, hcurrent, ?_⟩
  rw [step_eq_execute hcurrent hobeys.ne_foreign]
  have hframed : Framed At g { m with steps := m.steps + 1 } ws fs :=
    h.toFramed.congr rfl rfl rfl rfl
  exact (hframed.goes_execute hp hpc hstands hall rfl).of_addStep

/-! ## Runs -/

/-- A program that is taken in is in order, unless there is no room for its global variables. -/
theorem Disciplined.goes_load {p : Program} (hp : Disciplined p g At) (m : Machine) :
    IsFault (loadProgram p m) ∨ ∃ m₁, loadProgram p m = .ok () m₁ ∧
      InOrder At g m₁ (List.replicate g 0) [] ∧ m₁.options = m.options ∧ m₁.program = p ∧
      m₁.running = true := by
  have hload := loadProgram_eq hp.globals m
  split at hload
  · obtain ⟨m₁, hm₁, hshows, hoptions, hprogram, hrunning⟩ := hload
    have hholds := hshows.holds
    rw [words_start] at hholds
    have hzeros (k : Nat) (v : Int) (hv : (List.replicate g (0 : Int))[k]? = some v) :
        Word.IsWord v := by
      rw [List.eq_of_mem_replicate (List.mem_of_getElem? hv)]
      decide
    refine .inr ⟨m₁, hm₁, ⟨⟨hholds, hshows.fp, .nil, fun k v hv _ => hzeros k v hv⟩, 0,
      hshows.pc, ?_⟩, hoptions, hprogram, hrunning⟩
    exact .within hp.start (Int.le_refl 0) (by simp [floor])
  · obtain ⟨f, m₁, hm₁, -⟩ := hload
    exact .inl ⟨f, m₁, hm₁⟩

/-- A machine in order stays in order for as many steps as it takes, unless it faults. -/
theorem InOrder.goes_stepMany (hp : Disciplined m.program g At) (h : InOrder At g m ws fs)
    (n : Nat) :
    IsFault (stepMany n m) ∨ ∃ m' ws' fs', stepMany n m = .ok () m' ∧
      InOrder At g m' ws' fs' ∧ m'.options = m.options ∧ m'.program = m.program := by
  induction n generalizing m ws fs with
  | zero => exact .inr ⟨m, ws, fs, rfl, h, rfl, rfl⟩
  | succ n ih =>
    obtain ⟨i, -, ⟨f, m', hm'⟩ | ⟨m₁, ws₁, fs₁, hm₁, hadvances⟩⟩ := h.goes_step hp
    · exact .inl ⟨f, m', stepMany_succ_of_error hm'⟩
    · have hp₁ := hp
      rw [← hadvances.program] at hp₁
      rw [stepMany_succ_of_ok hm₁]
      rcases ih hp₁ hadvances.inOrder with hfault | ⟨m', ws', fs', hm', horder, hoptions, hprogram⟩
      · exact .inl hfault
      · exact .inr ⟨m', ws', fs', hm', horder, hoptions.trans hadvances.options,
          hprogram.trans hadvances.program⟩

/-- A disciplined program keeps every machine in order until it faults. -/
theorem Disciplined.goes_trial {p : Program} (hp : Disciplined p g At) (m : Machine) (n : Nat) :
    IsFault (trial p n m) ∨ ∃ m' ws fs, trial p n m = .ok () m' ∧ InOrder At g m' ws fs ∧
      m'.options = m.options ∧ m'.program = p := by
  rcases hp.goes_load m with ⟨f, m₁, hm₁⟩ | ⟨m₁, hm₁, horder, hoptions, rfl, -⟩
  · exact .inl ⟨f, m₁, trial_of_load_error hm₁⟩
  · rw [trial_of_load_ok hm₁]
    rcases horder.goes_stepMany hp n with hfault | ⟨m', ws, fs, hm', horder', hoptions', hprogram⟩
    · exact .inl hfault
    · exact .inr ⟨m', ws, fs, hm', horder', hoptions'.trans hoptions, hprogram⟩

end StackLang.Discipline
