import StackLang.Proofs.Discipline.Code

/-!
# The layout of programs

The functions of a program stand one after the other behind the code outside them, each from its
entry up to the next entry. So every address beyond the end of the run belongs to exactly one
function, and no two points of a program are at the same address.
-/

namespace StackLang

open StackLang.Tree (Parts)
open Simulation (Clean)

/-! ## Definitions in a row -/

namespace Script

variable {σ : Scope} {address entry : Nat} {ds : List Definition} {d e : Definition}

/-- A function is entered behind the code of the functions before it. -/
theorem lookup_entriesFrom {before after : List Definition}
    (hnodup : ((before ++ d :: after).map Definition.name).Nodup) :
    (entriesFrom σ address (before ++ d :: after)).lookup d.name =
      some (address + (before.flatMap (Definition.code σ)).length) := by
  induction before generalizing address with
  | nil => simp [entriesFrom]
  | cons e before ih =>
    rw [List.cons_append, List.map_cons, List.nodup_cons] at hnodup
    have hne : d.name ≠ e.name := by
      intro heq
      apply hnodup.1
      rw [← heq, List.map_append]
      exact List.mem_append_right _ List.mem_cons_self
    rw [List.cons_append, entriesFrom, List.lookup_cons, beq_eq_false_iff_ne.mpr hne,
      ih hnodup.2, List.flatMap_cons, List.length_append, Nat.add_assoc]

/-- Different functions do not overlap. -/
theorem append_le_or_le {before before' after after' : List Definition}
    (h : before ++ d :: after = before' ++ e :: after') (hne : d ≠ e) :
    ((before ++ [d]).flatMap (Definition.code σ)).length ≤
        (before'.flatMap (Definition.code σ)).length ∨
      ((before' ++ [e]).flatMap (Definition.code σ)).length ≤
        (before.flatMap (Definition.code σ)).length := by
  have hlonger {front mid : List Definition} {c : Definition} :
      ((front ++ [c]).flatMap (Definition.code σ)).length ≤
        ((front ++ c :: mid).flatMap (Definition.code σ)).length := by
    simp only [List.flatMap_append, List.flatMap_cons, List.length_append, List.flatMap_nil,
      List.length_nil]
    omega
  rcases List.append_eq_append_iff.mp h with ⟨mid, rfl, hmid⟩ | ⟨mid, rfl, hmid⟩
  · cases mid with
    | nil => exact absurd (List.cons.inj hmid).1 hne
    | cons c mid =>
      obtain ⟨rfl, -⟩ := List.cons.inj hmid
      exact .inl hlonger
  · cases mid with
    | nil => exact absurd (List.cons.inj hmid).1.symm hne
    | cons c mid =>
      obtain ⟨rfl, -⟩ := List.cons.inj hmid
      exact .inr hlonger

/-- Every address in the code of functions is in that of one of them. -/
theorem exists_append_of_lt (hlow : address ≤ entry)
    (hhigh : entry < address + (ds.flatMap (Definition.code σ)).length) :
    ∃ before d after, ds = before ++ d :: after ∧
      address + (before.flatMap (Definition.code σ)).length ≤ entry ∧
      entry < address + (before.flatMap (Definition.code σ)).length + (d.code σ).length := by
  induction ds generalizing address with
  | nil => exact absurd hhigh (by simp; omega)
  | cons e ds ih =>
    rw [List.flatMap_cons, List.length_append] at hhigh
    by_cases hlt : entry < address + (e.code σ).length
    · exact ⟨[], e, ds, rfl, hlow, hlt⟩
    · have hlow' : address + (e.code σ).length ≤ entry := Nat.le_of_not_lt hlt
      obtain ⟨before, d, after, rfl, hle, hlt'⟩ := ih hlow' (by omega)
      refine ⟨e :: before, d, after, rfl, ?_, ?_⟩
      · rw [List.flatMap_cons, List.length_append]
        omega
      · rw [List.flatMap_cons, List.length_append]
        omega

end Script

/-! ## The code of each function -/

theorem Script.size_program (comments : Bool) (s : Script) :
    (s.program comments).size = s.code.length := by
  simp [Script.program, Program.size]

/-- What stands at the places of the code outside functions. -/
theorem Script.program_has_entry (comments : Bool) (s : Script) :
    (s.program comments).Has s.entries 0 (s.entry.code s.startScope) ∧
    (∃ i, (s.program comments).code[(s.entry.code s.startScope).length]? = some i ∧
      i.operation = .call (((s.entries.lookup entryName).map Int.ofNat).getD (-1))) ∧
    ∃ i, (s.program comments).code[Simulation.haltAddress s]? = some i ∧
      i.operation = .halt := by
  have hcode := s.program_has comments
  rw [Script.code, Script.entryCode, Program.has_append, Program.has_append, Nat.zero_add] at hcode
  obtain ⟨⟨hentry, hlast⟩, -⟩ := hcode
  obtain ⟨hcall, hhalt⟩ := Program.has_cons.mp hlast
  exact ⟨hentry, hcall 0 _ rfl, hhalt 0 _ rfl⟩

/-- An address is in the code of a function. -/
def Script.InFunction (s : Script) (f : Parts) (address : Nat) : Prop :=
  ∃ entry, s.entries.lookup f.name = some entry ∧ entry ≤ address ∧
    address < entry + (f.definition.code s.functionScope).length

namespace Simulation.Clean

variable {tree : Tree} {statements : List Tree} {fs : List Parts} {s : Script} {f g : Parts}
  {address entry : Nat}

theorem definitions_eq (h : Clean tree statements fs s) :
    s.definitions = fs.map Parts.definition :=
  Script.definitions_eq h.functions h.nodup_names

theorem nodup_definitions (h : Clean tree statements fs s) :
    (s.definitions.map Definition.name).Nodup := by
  rw [h.definitions_eq, List.map_map]
  exact h.nodup_names

theorem eq_of_name_eq (h : Clean tree statements fs s) (hf : f ∈ fs) (hg : g ∈ fs)
    (hname : f.name = g.name) : f = g :=
  List.inj_on_of_nodup_map h.nodup_names hf hg hname

/-- A function is entered behind the functions before it. -/
theorem lookup_entries (h : Clean tree statements fs s) {before after : List Definition}
    {d : Definition} (hsplit : s.definitions = before ++ d :: after) :
    s.entries.lookup d.name = some (s.entryCode.length +
      (before.flatMap (Definition.code s.functionScope)).length) := by
  have hnodup := h.nodup_definitions
  rw [Script.entries, hsplit]
  rw [hsplit] at hnodup
  exact Script.lookup_entriesFrom hnodup

/-- A function stands behind the functions before it. -/
theorem exists_append (h : Clean tree statements fs s) (hf : f ∈ fs)
    (hentry : s.entries.lookup f.name = some entry) :
    ∃ before after, s.definitions = before ++ f.definition :: after ∧
      entry = s.entryCode.length +
        (before.flatMap (Definition.code s.functionScope)).length := by
  have hmem : f.definition ∈ s.definitions := by
    rw [h.definitions_eq]
    exact List.mem_map_of_mem hf
  obtain ⟨before, after, hsplit⟩ := List.append_of_mem hmem
  exact ⟨before, after, hsplit, Option.some.inj (hentry.symm.trans (h.lookup_entries hsplit))⟩

/-- The functions stand behind the code outside them. -/
theorem entryCode_le (h : Clean tree statements fs s) (hf : f ∈ fs)
    (hentry : s.entries.lookup f.name = some entry) : s.entryCode.length ≤ entry := by
  obtain ⟨before, after, -, rfl⟩ := h.exists_append hf hentry
  exact Nat.le_add_right _ _

/-- No address is in the code of two functions. -/
theorem eq_of_inFunction (h : Clean tree statements fs s) (hf : f ∈ fs) (hg : g ∈ fs)
    (hinf : s.InFunction f address) (hing : s.InFunction g address) : f = g := by
  obtain ⟨entry, hentry, hle, hlt⟩ := hinf
  obtain ⟨entry', hentry', hle', hlt'⟩ := hing
  obtain ⟨before, after, hsplit, rfl⟩ := h.exists_append hf hentry
  obtain ⟨before', after', hsplit', rfl⟩ := h.exists_append hg hentry'
  by_contra hne
  have hne' : f.definition ≠ g.definition := fun heq =>
    hne (h.eq_of_name_eq hf hg (congrArg Definition.name heq))
  have hcases := Script.append_le_or_le (σ := s.functionScope) (hsplit.symm.trans hsplit') hne'
  simp only [List.flatMap_append, List.flatMap_cons, List.flatMap_nil, List.append_nil,
    List.length_append] at hcases
  omega

/-- Every address behind the code outside functions is in one of them. -/
theorem exists_inFunction (h : Clean tree statements fs s) (hlow : s.entryCode.length ≤ address)
    (hhigh : address < s.code.length) : ∃ f ∈ fs, s.InFunction f address := by
  rw [Script.code, List.length_append] at hhigh
  obtain ⟨before, d, after, hsplit, hle, hlt⟩ := Script.exists_append_of_lt hlow hhigh
  have hd : d ∈ fs.map Parts.definition := by
    rw [← h.definitions_eq, hsplit]
    exact List.mem_append_right _ List.mem_cons_self
  obtain ⟨f, hf, rfl⟩ := List.mem_map.mp hd
  exact ⟨f, hf, _, h.lookup_entries hsplit, hle, hlt⟩

/-- The code of a function goes up to the next entry. -/
theorem inFunction_of_next (h : Clean tree statements fs s) (hf : f ∈ fs)
    (hentry : s.entries.lookup f.name = some entry) (hle : entry ≤ address)
    (hnext : ∀ e ∈ s.entries, e.2 ≤ entry ∨ address < e.2) (hlt : address < s.code.length) :
    s.InFunction f address := by
  obtain ⟨g, hg, entry', hentry', hle', hlt'⟩ :=
    h.exists_inFunction ((h.entryCode_le hf hentry).trans hle) hlt
  have hmem : (g.name, entry') ∈ s.entries := by
    obtain ⟨before, after, hsplit, -⟩ := List.lookup_eq_some_iff.mp hentry'
    rw [hsplit]
    simp
  have hfirst : entry' ≤ entry := by
    rcases hnext _ hmem with hnext | hnext
    · exact hnext
    · exact absurd hle' (Nat.not_le.mpr hnext)
  have hlength : 0 < (f.definition.code s.functionScope).length := by simp [Definition.code]
  have heq : f = g := h.eq_of_inFunction hf hg ⟨entry, hentry, le_rfl, by omega⟩
    ⟨entry', hentry', hfirst, by omega⟩
  subst heq
  exact ⟨entry', hentry', hle', hlt'⟩

end Simulation.Clean

/-! ## Points -/

namespace Discipline

variable {tree : Tree} {statements : List Tree} {fs : List Parts} {s : Script} {f : Parts}
  {address : Nat} {point point' : Point}

theorem length_code (s : Script) (f : Parts) :
    (f.definition.code s.functionScope).length = (bodyCode s f).length + 2 := by
  simp only [Definition.code, bodyCode, List.length_cons, List.length_append, List.length_nil]
  rfl

theorem length_entryCode (s : Script) :
    s.entryCode.length = (s.entry.code s.startScope).length + 2 := by
  simp [Script.entryCode]

/-- What stands at an address in the code of a function, if control can come to it. -/
def pointIn (s : Script) (f : Parts) (k : Nat) : Point :=
  match k with
  | 0 => .entrance f.parameters.length f.written.locals
  | k + 1 => .within (regionOf f) (effect (arityOf s) ((bodyCode s f).take k))

/-- What stands at an address outside functions. -/
def pointOutside (s : Script) (k : Nat) : Point :=
  if k ≤ (s.entry.code s.startScope).length then
    .within .outside (effect (arityOf s) ((s.entry.code s.startScope).take k))
  else .exit

/-- A point is that of its address, outside functions or in one of them. -/
theorem PointOf.eq_pointOutside_or_pointIn (h : Clean tree statements fs s)
    (hpoint : PointOf fs s address point) :
    (address < s.entryCode.length ∧ point = pointOutside s address) ∨
      ∃ f ∈ fs, ∃ entry, s.entries.lookup f.name = some entry ∧ s.InFunction f address ∧
        s.entryCode.length ≤ address ∧ point = pointIn s f (address - entry) := by
  have hlength := length_entryCode s
  cases hpoint with
  | outside hk =>
    exact .inl ⟨by omega, by rw [pointOutside, if_pos hk]⟩
  | exit =>
    rw [Simulation.haltAddress]
    exact .inl ⟨by omega, by rw [pointOutside, if_neg (by omega)]⟩
  | @entrance f _ hf haddress =>
    refine .inr ⟨f, hf, address, haddress, ⟨address, haddress, le_rfl, ?_⟩,
      h.entryCode_le hf haddress, ?_⟩
    · rw [length_code]
      omega
    · rw [Nat.sub_self, pointIn]
  | @inside f entry k hf haddress hk =>
    have hle := h.entryCode_le hf haddress
    refine .inr ⟨f, hf, entry, haddress, ⟨entry, haddress, by omega, ?_⟩, by omega, ?_⟩
    · rw [length_code]
      omega
    · rw [show entry + 1 + k - entry = k + 1 by omega, pointIn]

/-- No two points are at the same address. -/
theorem PointOf.unique (h : Clean tree statements fs s) (hpoint : PointOf fs s address point)
    (hpoint' : PointOf fs s address point') : point = point' := by
  rcases hpoint.eq_pointOutside_or_pointIn h with
    ⟨hlt, rfl⟩ | ⟨f, hf, entry, hentry, hin, hle, rfl⟩
  · rcases hpoint'.eq_pointOutside_or_pointIn h with ⟨-, rfl⟩ | ⟨g, -, -, -, -, hle', -⟩
    · rfl
    · omega
  · rcases hpoint'.eq_pointOutside_or_pointIn h with
      ⟨hlt', -⟩ | ⟨g, hg, entry', hentry', hin', -, rfl⟩
    · omega
    · obtain rfl := h.eq_of_inFunction hf hg hin hin'
      rw [Option.some.inj (hentry.symm.trans hentry')]

end Discipline

end StackLang
