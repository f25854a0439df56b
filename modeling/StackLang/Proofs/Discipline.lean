import StackLang.Proofs.Steps

/-!
# The stack discipline

Control comes to every point of a disciplined program with a known number of words above the
variables of the region it is in, so no instruction takes a word that is not there, and none writes
a word that a call has saved. A machine that keeps its frames in order then either faults in a step
or still keeps them in order, and a step inside a call changes no word between the global variables
and the arguments of that call.
-/

namespace StackLang.Discipline

/-! ## Points of a program -/

/-- The code outside all functions, or a function with its numbers of parameters and variables. -/
inductive Region where
  | outside
  | inside (parameters locals : Nat)

/-- A point that control can come to. -/
inductive Point where
  /-- Within a region, with a number of words above its variables. -/
  | within (r : Region) (depth : Int)
  /-- The entrance of a function. -/
  | entrance (parameters locals : Nat)
  /-- The end of the program. -/
  | exit

/-- The offsets from the base of a frame at which a region has its variables: the parameters stand
below the two words that a call saves, the other variables above them. -/
def Region.HasOffset : Region → Int → Prop
  | .outside, _ => False
  | .inside parameters locals, offset =>
    (-(parameters + 2 : Int) ≤ offset ∧ offset < -2) ∨ (0 ≤ offset ∧ offset < locals)

/-- An operation may stand at a point: there are the words and the variables that it uses, and it
leads to points with the words that it leaves. -/
inductive Obeys (At : Nat → Point → Prop) (g address : Nat) : Point → Operation → Prop
  | push {r : Region} {d : Int} (v : Int) (next : At (address + 1) (.within r (d + 1))) :
    Obeys At g address (.within r d) (.push v)
  | load {r : Region} {d offset : Int} (known : r.HasOffset offset)
      (next : At (address + 1) (.within r (d + 1))) :
    Obeys At g address (.within r d) (.load offset)
  | store {r : Region} {d offset : Int} (known : r.HasOffset offset) (enough : 1 ≤ d)
      (next : At (address + 1) (.within r (d - 1))) :
    Obeys At g address (.within r d) (.store offset)
  | loadGlobal {r : Region} {d : Int} {slot : Nat} (known : slot < g)
      (next : At (address + 1) (.within r (d + 1))) :
    Obeys At g address (.within r d) (.loadGlobal slot)
  | storeGlobal {r : Region} {d : Int} {slot : Nat} (known : slot < g) (enough : 1 ≤ d)
      (next : At (address + 1) (.within r (d - 1))) :
    Obeys At g address (.within r d) (.storeGlobal slot)
  | pop {r : Region} {d : Int} (enough : 1 ≤ d) (next : At (address + 1) (.within r (d - 1))) :
    Obeys At g address (.within r d) .pop
  | compute {r : Region} {d : Int} (op : Operator) (enough : 2 ≤ d)
      (next : At (address + 1) (.within r (d - 1))) :
    Obeys At g address (.within r d) (.compute op)
  | negate {r : Region} {d : Int} (enough : 1 ≤ d) (next : At (address + 1) (.within r d)) :
    Obeys At g address (.within r d) .negate
  | print {r : Region} {d : Int} (enough : 1 ≤ d) (next : At (address + 1) (.within r d)) :
    Obeys At g address (.within r d) .print
  | jump {r : Region} {d : Int} {target : Nat} (goal : At target (.within r d)) :
    Obeys At g address (.within r d) (.jump target)
  | jumpIfZero {r : Region} {d : Int} {target : Nat} (enough : 1 ≤ d)
      (goal : At target (.within r (d - 1))) (next : At (address + 1) (.within r (d - 1))) :
    Obeys At g address (.within r d) (.jumpIfZero target)
  | call {r : Region} {d : Int} {target parameters locals : Nat}
      (goal : At target (.entrance parameters locals)) (arguments : (parameters : Int) ≤ d)
      (next : At (address + 1) (.within r (d - parameters + 1))) :
    Obeys At g address (.within r d) (.call target)
  /-- The first call passes no arguments, whatever it calls. -/
  | begin {target parameters locals : Nat} (goal : At target (.entrance parameters locals))
      (next : At (address + 1) .exit) :
    Obeys At g address (.within .outside 0) (.call target)
  /-- There may be nothing to call first. -/
  | missing {target : Int} (negative : target < 0) :
    Obeys At g address (.within .outside 0) (.call target)
  | giveBack {parameters locals : Nat} {d : Int} (enough : 1 ≤ d) :
    Obeys At g address (.within (.inside parameters locals) d) (.giveBack parameters)
  | enter {parameters locals : Nat}
      (next : At (address + 1) (.within (.inside parameters locals) 0)) :
    Obeys At g address (.entrance parameters locals) (.enter locals)
  | halt : Obeys At g address .exit .halt

/-- Every point of a program is at an instruction that may stand there. -/
structure Disciplined (p : Program) (g : Nat) (At : Nat → Point → Prop) : Prop where
  globals : p.globals = g
  start : At 0 (.within .outside 0)
  obeys : ∀ address point, At address point →
    ∃ i, p.code[address]? = some i ∧ Obeys At g address point i.operation

/-! ## Frames -/

/-- What a call makes: the base of the frame stands right above the address to return to and the
base of the caller. -/
structure Frame where
  parameters : Nat
  locals : Nat
  base : Nat
  returnTo : Nat

/-- Where the arguments of the call begin. -/
def Frame.bottom (f : Frame) : Nat := f.base - 2 - f.parameters

/-- The two words that a call saves. -/
def Frame.Saves (f : Frame) (k : Nat) : Prop := k + 2 = f.base ∨ k + 1 = f.base

/-- The region of the innermost frame. -/
def region : List Frame → Region
  | [] => .outside
  | f :: _ => .inside f.parameters f.locals

/-- The base of the innermost frame. -/
def base : List Frame → Nat
  | [] => 0
  | f :: _ => f.base

/-- Where the words above the variables begin. -/
def floor (g : Nat) : List Frame → Nat
  | [] => g
  | f :: _ => f.base + f.locals

/-- Where the arguments of the innermost frame begin. -/
def bottom : List Frame → Nat
  | [] => 0
  | f :: _ => f.bottom

/-- The saved words lead from each frame to the next one, and each return address is at a point that
expects the value. -/
inductive Linked (At : Nat → Point → Prop) (g : Nat) (ws : List Int) : List Frame → Prop
  | nil : Linked At g ws []
  | call {f : Frame} {fs : List Frame} {depth : Int} (rest : Linked At g ws fs)
      (next : At f.returnTo (.within (region fs) (depth + 1))) (depth_nonneg : 0 ≤ depth)
      (base_eq : (f.base : Int) = floor g fs + depth + f.parameters + 2)
      (returnTo : ws[f.base - 2]? = some (f.returnTo : Int))
      (caller : ws[f.base - 1]? = some (base fs : Int)) : Linked At g ws (f :: fs)
  | begin {f : Frame} (next : At f.returnTo .exit) (base_eq : f.base = g + 2)
      (returnTo : ws[f.base - 2]? = some (f.returnTo : Int))
      (caller : ws[f.base - 1]? = some 0) : Linked At g ws [f]

section Linked

variable {At : Nat → Point → Prop} {g : Nat} {ws ws' : List Int} {f : Frame} {fs : List Frame}

theorem Frame.bottom_le_base (f : Frame) : f.bottom ≤ f.base := by
  rw [Frame.bottom]
  omega

theorem bottom_le_floor (g : Nat) (fs : List Frame) : bottom fs ≤ floor g fs := by
  cases fs with
  | nil => exact Nat.zero_le g
  | cons f fs => exact Nat.le_trans f.bottom_le_base (Nat.le_add_right _ _)

namespace Linked

/-- The frames depend on the saved words only. -/
theorem congr (h : Linked At g ws fs)
    (hsaved : ∀ f ∈ fs, ∀ k, f.Saves k → ws'[k]? = ws[k]?) : Linked At g ws' fs := by
  induction h with
  | nil => exact .nil
  | call rest next depth_nonneg base_eq returnTo caller ih =>
    have hsaved' := hsaved _ List.mem_cons_self
    have hrest := ih fun f hf => hsaved f (List.mem_cons_of_mem _ hf)
    refine .call hrest next depth_nonneg base_eq ?_ ?_
    · rw [hsaved' _ (.inl (by omega)), returnTo]
    · rw [hsaved' _ (.inr (by omega)), caller]
  | begin next base_eq returnTo caller =>
    have hsaved' := hsaved _ List.mem_cons_self
    refine .begin next base_eq ?_ ?_
    · rw [hsaved' _ (.inl (by omega)), returnTo]
    · rw [hsaved' _ (.inr (by omega)), caller]

theorem globals_le_floor (h : Linked At g ws fs) : g ≤ floor g fs := by
  induction h with
  | nil => exact Nat.le_refl _
  | call rest next depth_nonneg base_eq returnTo caller ih =>
    rw [floor]
    omega
  | begin next base_eq returnTo caller =>
    rw [floor]
    omega

theorem globals_lt_base (h : Linked At g ws fs) (hf : f ∈ fs) : g + 2 ≤ f.base := by
  induction h with
  | nil => cases hf
  | call rest next depth_nonneg base_eq returnTo caller ih =>
    rcases List.mem_cons.mp hf with rfl | hf
    · have hfloor := rest.globals_le_floor
      omega
    · exact ih hf
  | begin next base_eq returnTo caller =>
    obtain rfl := List.mem_singleton.mp hf
    omega

theorem base_le_floor (h : Linked At g ws fs) (hf : f ∈ fs) : f.base ≤ floor g fs := by
  induction h with
  | nil => cases hf
  | call rest next depth_nonneg base_eq returnTo caller ih =>
    rw [floor]
    rcases List.mem_cons.mp hf with rfl | hf
    · omega
    · have hfloor := ih hf
      omega
  | begin next base_eq returnTo caller =>
    obtain rfl := List.mem_singleton.mp hf
    rw [floor]
    omega

theorem base_le_length (h : Linked At g ws fs) (hf : f ∈ fs) : f.base ≤ ws.length := by
  induction h with
  | nil => cases hf
  | call rest next depth_nonneg base_eq returnTo caller ih =>
    rcases List.mem_cons.mp hf with rfl | hf
    · have hlt := (List.getElem?_eq_some_iff.mp caller).1
      omega
    · exact ih hf
  | begin next base_eq returnTo caller =>
    obtain rfl := List.mem_singleton.mp hf
    have hlt := (List.getElem?_eq_some_iff.mp caller).1
    omega

/-- The arguments of an inner call stand above those of an outer one. -/
theorem bottom_le {gs : List Frame} (h : Linked At g ws (gs ++ f :: fs)) :
    f.bottom ≤ bottom (gs ++ f :: fs) := by
  induction gs with
  | nil => exact Nat.le_refl _
  | cons e gs ih =>
    generalize hrest : gs ++ f :: fs = rest at h ih
    rw [List.cons_append, hrest] at h ⊢
    cases h with
    | call rest next depth_nonneg base_eq returnTo caller =>
      have hbelow := ih rest
      have hfloor := bottom_le_floor g (gs ++ f :: fs)
      rw [hrest] at hfloor
      change f.bottom ≤ e.base - 2 - e.parameters
      omega
    | begin next base_eq returnTo caller => simp at hrest

end Linked

/-! ## Variables -/

/-- The place of a variable that is known in the innermost frame. -/
structure IsVariable (g : Nat) (fs : List Frame) (k : Nat) : Prop where
  lt_floor : k < floor g fs
  not_saves : ∀ f ∈ fs, ¬f.Saves k
  bottom_le : g ≤ k → bottom fs ≤ k

theorem Linked.isVariable_global (h : Linked At g ws fs) {slot : Nat} (hslot : slot < g) :
    IsVariable g fs slot := by
  refine ⟨Nat.lt_of_lt_of_le hslot h.globals_le_floor, fun f hf hsaves => ?_, fun hle => ?_⟩
  · have hbase := h.globals_lt_base hf
    rcases hsaves with hsaves | hsaves <;> omega
  · omega

theorem Linked.isVariable_offset (h : Linked At g ws fs) {offset : Int} {k : Nat}
    (hoffset : (region fs).HasOffset offset) (hk : (base fs : Int) + offset = k) :
    IsVariable g fs k := by
  cases h with
  | nil => cases hoffset
  | @call f fs depth rest next depth_nonneg base_eq returnTo caller =>
    simp only [region, Region.HasOffset] at hoffset
    rw [base] at hk
    refine ⟨by rw [floor]; omega, fun e he hsaves => ?_, fun _ => ?_⟩
    · rcases List.mem_cons.mp he with rfl | he
      · rcases hsaves with hsaves | hsaves <;> omega
      · -- the outer frames end below the arguments of the innermost one
        have hfloor := rest.base_le_floor he
        rcases hsaves with hsaves | hsaves <;> omega
    · rw [bottom, Frame.bottom]
      omega
  | @begin f next base_eq returnTo caller =>
    simp only [region, Region.HasOffset] at hoffset
    rw [base] at hk
    refine ⟨by rw [floor]; omega, fun e he hsaves => ?_, fun _ => ?_⟩
    · obtain rfl := List.mem_singleton.mp he
      rcases hsaves with hsaves | hsaves <;> omega
    · rw [bottom, Frame.bottom]
      omega

theorem Linked.not_saves_of_floor_le (h : Linked At g ws fs) {k : Nat} (hk : floor g fs ≤ k)
    (hf : f ∈ fs) : ¬f.Saves k := by
  have hbase := h.base_le_floor hf
  rintro (hsaves | hsaves) <;> omega

end Linked

/-! ## Machines in order -/

open Machine

/-- The frames of a machine are linked, and all words that no call has saved are words. -/
structure Framed (At : Nat → Point → Prop) (g : Nat) (m : Machine) (ws : List Int)
    (fs : List Frame) : Prop where
  holds : m.Holds ws
  fp : m.fp = base fs
  linked : Linked At g ws fs
  data : ∀ k v, ws[k]? = some v → (∀ f ∈ fs, ¬f.Saves k) → Word.IsWord v

/-- An address is that of a point whose words are there. -/
inductive Stands (At : Nat → Point → Prop) (g : Nat) (ws : List Int) : List Frame → Nat → Prop
  | within {fs : List Frame} {address : Nat} {depth : Int}
      (point : At address (.within (region fs) depth)) (depth_nonneg : 0 ≤ depth)
      (length_eq : (ws.length : Int) = floor g fs + depth) : Stands At g ws fs address
  | entrance {f : Frame} {fs : List Frame} {address : Nat}
      (point : At address (.entrance f.parameters f.locals)) (length_eq : ws.length = f.base) :
    Stands At g ws (f :: fs) address
  | exit {address : Nat} (point : At address .exit) (some : ws ≠ []) : Stands At g ws [] address

/-- A machine in order is at a point of its program. -/
structure InOrder (At : Nat → Point → Prop) (g : Nat) (m : Machine) (ws : List Int)
    (fs : List Frame) : Prop extends Framed At g m ws fs where
  stands : ∃ address : Nat, m.pc = address ∧ Stands At g ws fs address

variable {At : Nat → Point → Prop} {g : Nat} {m m' : Machine} {ws us : List Int}
  {fs : List Frame} {i : Instruction} {v : Int} {address : Nat} {depth : Int}

namespace Framed

theorem congr (h : Framed At g m ws fs) (hsp : m'.sp = m.sp) (hfp : m'.fp = m.fp)
    (hstack : m'.stack = m.stack) (hoptions : m'.options = m.options) : Framed At g m' ws fs :=
  ⟨h.holds.congr hsp hstack hoptions, hfp.trans h.fp, h.linked, h.data⟩

/-- Words above all saved ones may be dropped. -/
theorem take (h : Framed At g m (ws ++ us) fs) (hbase : ∀ f ∈ fs, f.base ≤ ws.length) :
    Framed At g { m with sp := ws.length } ws fs := by
  refine ⟨h.holds.take, h.fp, h.linked.congr fun f hf k hsaves => ?_, fun k v hv => ?_⟩
  · have hlt : k < ws.length := by
      have hle := hbase f hf
      rcases hsaves with hsaves | hsaves <;> omega
    rw [List.getElem?_append_left hlt]
  · have hlt : k < ws.length := (List.getElem?_eq_some_iff.mp hv).1
    exact h.data k v (by rw [List.getElem?_append_left hlt, hv])

/-- More words may be put on top. -/
theorem append (h : Framed At g m ws fs) (hholds : m'.Holds (ws ++ us)) (hfp : m'.fp = m.fp)
    (hus : ∀ v ∈ us, Word.IsWord v) : Framed At g m' (ws ++ us) fs := by
  refine ⟨hholds, hfp.trans h.fp, h.linked.congr fun f hf k hsaves => ?_, fun k v hv hfree => ?_⟩
  · have hlt : k < ws.length := by
      have hle := h.linked.base_le_length hf
      rcases hsaves with hsaves | hsaves <;> omega
    rw [List.getElem?_append_left hlt]
  · by_cases hlt : k < ws.length
    · rw [List.getElem?_append_left hlt] at hv
      exact h.data k v hv hfree
    · rw [List.getElem?_append_right (Nat.le_of_not_lt hlt)] at hv
      exact hus v (List.mem_of_getElem? hv)

/-- A variable may be written. -/
theorem set (h : Framed At g m ws fs) {k : Nat} (hk : IsVariable g fs k) (hv : Word.IsWord v) :
    Framed At g { m with stack := m.stack.setIfInBounds k v } (ws.set k v) fs := by
  refine ⟨h.holds.set k v, h.fp, h.linked.congr fun f hf j hsaves => ?_, fun j w hw hfree => ?_⟩
  · have hne : k ≠ j := fun heq => hk.not_saves f hf (heq ▸ hsaves)
    rw [List.getElem?_set_ne hne]
  · by_cases heq : k = j
    · rw [← heq] at hw
      have hlt := (List.getElem?_eq_some_iff.mp hw).1
      rw [List.length_set] at hlt
      rw [List.getElem?_set_self hlt] at hw
      exact Option.some.inj hw ▸ hv
    · rw [List.getElem?_set_ne heq] at hw
      exact h.data j w hw hfree

/-- The topmost word above the variables. -/
theorem exists_top (h : Framed At g m ws fs) (hfloor : floor g fs < ws.length) :
    ∃ us v, ws = us ++ [v] ∧ Word.IsWord v ∧ floor g fs ≤ us.length := by
  rcases List.eq_nil_or_concat ws with rfl | ⟨us, v, hws⟩
  · cases hfloor
  · rw [List.concat_eq_append] at hws
    subst hws
    rw [List.length_append, List.length_singleton] at hfloor
    have hle : floor g fs ≤ us.length := Nat.le_of_lt_succ hfloor
    refine ⟨us, v, rfl, h.data us.length v (by simp) fun f hf => ?_, hle⟩
    exact h.linked.not_saves_of_floor_le hle hf

/-- The words above the variables may be dropped one by one. -/
theorem dropTop (h : Framed At g m (ws ++ [v]) fs) (hfloor : floor g fs ≤ ws.length) :
    Framed At g { m with sp := ws.length } ws fs :=
  h.take fun _ hf => Nat.le_trans (h.linked.base_le_floor hf) hfloor

end Framed

end StackLang.Discipline
