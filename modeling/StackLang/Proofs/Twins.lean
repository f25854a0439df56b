import StackLang.Proofs.Contracts
import StackLang.Proofs.Refinement

/-!
# Machines side by side

Two machines have the same pointers and the same live words, except that addresses to return to may
be different addresses of different programs. A part of a step ends on both in the same way: both
succeed, or both fault for the same cause. Only the smaller one of two stacks may overflow alone.
-/

namespace StackLang

/-- Two programs side by side, on stacks of two sizes, and which of their addresses belong together.
-/
structure Stage where
  size : Int
  size' : Int
  size_le : size ≤ size'
  program : Program
  program' : Program
  Related : Nat → Nat → Prop

/-- What two machines have in common, besides the addresses they are at: the pointers, and which
words are addresses to return to. -/
structure Shared where
  pc : Int
  pc' : Int
  sp : Int
  fp : Int
  saved : Nat → Prop

/-- Two words are equal, or belong together as addresses if they are saved ones. -/
def Stage.Match (S : Stage) (saved : Prop) (v v' : Int) : Prop :=
  (saved → ∃ a a' : Nat, v = a ∧ v' = a' ∧ S.Related a a') ∧ (¬saved → v' = v)

theorem Stage.Match.congr {S : Stage} {c d : Prop} {v v' : Int} (h : S.Match c v v')
    (hiff : d ↔ c) : S.Match d v v' :=
  ⟨fun hd => h.1 (hiff.mp hd), fun hd => h.2 (mt hiff.mpr hd)⟩

theorem Stage.match_self {S : Stage} {d : Prop} (hd : ¬d) (v : Int) : S.Match d v v :=
  ⟨fun h => absurd h hd, fun _ => rfl⟩

/-- Neither the `n` top words nor any place above them are saved. -/
def Shared.Free (V : Shared) (n : Nat) : Prop := ∀ k : Nat, V.sp - n ≤ k → ¬V.saved k

namespace Machine

/-- The program, the stack and the pointers of a machine. -/
structure Poised (m : Machine) (p : Program) (size pc sp fp : Int) : Prop where
  program : m.program = p
  stackSize : m.options.stackSize = size
  size : m.stack.size = size.toNat
  pc : m.pc = pc
  sp : m.sp = sp
  fp : m.fp = fp

/-- Two machines side by side. -/
structure Twin (S : Stage) (V : Shared) (m m' : Machine) : Prop where
  left : m.Poised S.program S.size V.pc V.sp V.fp
  right : m'.Poised S.program' S.size' V.pc' V.sp V.fp
  running : m'.running = m.running
  steps : m'.steps = m.steps
  output : m'.output = m.output
  sp_nonneg : 0 ≤ V.sp
  sp_le : V.sp ≤ S.size
  words : ∀ k : Nat, (k : Int) < V.sp →
    ∃ v v', m.stack[k]? = some v ∧ m'.stack[k]? = some v' ∧ S.Match (V.saved k) v v'

/-- Two outcomes of the same part of a step: `Q` of two successes, `E` of two faults for the same
cause. If the first stack is smaller, it may also overflow where the other one does not. -/
inductive Agree {α : Type} (S : Stage) (E : Machine → Machine → Prop)
    (Q : α → Machine → α → Machine → Prop) :
    EStateM.Result Stop Machine α → EStateM.Result Stop Machine α → Prop
  | ok {a a' : α} {m m' : Machine} (h : Q a m a' m') : Agree S E Q (.ok a m) (.ok a' m')
  | fault {cause : FaultCause} {i i' : Option Instruction} {m m' : Machine} (h : E m m') :
    Agree S E Q (.error (.fault ⟨cause, m.pc, i⟩) { m with running := false })
      (.error (.fault ⟨cause, m'.pc, i'⟩) { m' with running := false })
  | overflow {f : Fault} {m : Machine} {r' : EStateM.Result Stop Machine α}
      (hlt : S.size < S.size') (hcategory : f.cause.category = .stackOverflow) :
    Agree S E Q (.error (.fault f) m) r'

/-- Two machines that stop in the middle of a step. -/
def Slips (S : Stage) (V : Shared) (m m' : Machine) : Prop :=
  ∃ sp fp, Twin S { V with sp, fp } m m'

section Agree

variable {α β : Type} {S : Stage} {V : Shared} {E : Machine → Machine → Prop}
  {Q Q' : α → Machine → α → Machine → Prop} {P : β → Machine → β → Machine → Prop}
  {x x' : Exec α} {f f' : α → Exec β} {m m' : Machine} {i i' : Instruction}
  {rest rest' : Unit → Exec α}

theorem Agree.imp {E' : Machine → Machine → Prop} {r r' : EStateM.Result Stop Machine α}
    (h : Agree S E Q r r') (hok : ∀ a m a' m', Q a m a' m' → Q' a m a' m')
    (hfault : ∀ m m', E m m' → E' m m') : Agree S E' Q' r r' := by
  cases h with
  | ok h => exact .ok (hok _ _ _ _ h)
  | fault h => exact .fault (hfault _ _ h)
  | overflow hlt hcategory => exact .overflow hlt hcategory

/-- What is known of the first outcome alone. -/
theorem Agree.and_left {r r' : EStateM.Result Stop Machine α} {I : α → Machine → Prop}
    (h : Agree S E Q r r') (hr : ∀ a m₁, r = .ok a m₁ → I a m₁) :
    Agree S E (fun a m₁ a' m₁' => Q a m₁ a' m₁' ∧ I a m₁) r r' := by
  cases h with
  | ok h => exact .ok ⟨h, hr _ _ rfl⟩
  | fault h => exact .fault h
  | overflow hlt hcategory => exact .overflow hlt hcategory

/-- One part after the other. -/
theorem Agree.bind (hx : Agree S E Q (x m) (x' m'))
    (hf : ∀ a m₁ a' m₁', Q a m₁ a' m₁' → Agree S E P (f a m₁) (f' a' m₁')) :
    Agree S E P ((x >>= f) m) ((x' >>= f') m') := by
  simp only [Bind.bind, EStateM.bind]
  generalize x m = r, x' m' = r' at hx
  cases hx with
  | ok h => exact hf _ _ _ _ h
  | fault h => exact .fault h
  | overflow hlt hcategory => exact .overflow hlt hcategory

theorem Agree.get_bind {k k' : Machine → Exec α} (h : Agree S E Q (k m m) (k' m' m')) :
    Agree S E Q ((get >>= k) m) ((get >>= k') m') := h

/-- A part that goes on unless there is a fault, which both machines have or neither. -/
theorem Agree.guard {c c' : Prop} [Decidable c] [Decidable c'] {cause : FaultCause}
    (hiff : c ↔ c') (hfault : c → E m m') (hrest : ¬c → Agree S E Q (rest () m) (rest' () m')) :
    Agree S E Q ((if c then Machine.fault i cause >>= rest else rest ()) m)
      ((if c' then Machine.fault i' cause >>= rest' else rest' ()) m') := by
  by_cases hc : c
  · rw [if_pos hc, if_pos (hiff.mp hc)]
    exact .fault (hfault hc)
  · rw [if_neg hc, if_neg (mt hiff.mpr hc)]
    exact hrest hc

/-- A part that goes on unless there is too little room for `sp` words. -/
theorem Agree.guard_room {c c' : Prop} [Decidable c] [Decidable c'] (cause : Int → FaultCause)
    (hcategory : ∀ size, (cause size).category = .stackOverflow)
    (hiff : S.size = S.size' → (c ↔ c')) (hle : c' → c) (hfault : E m m')
    (hrest : ¬c → Agree S E Q (rest () m) (rest' () m')) :
    Agree S E Q ((if c then Machine.fault i (cause S.size) >>= rest else rest ()) m)
      ((if c' then Machine.fault i' (cause S.size') >>= rest' else rest' ()) m') := by
  rcases Int.lt_or_eq_of_le S.size_le with hlt | heq
  · by_cases hc : c
    · rw [if_pos hc]
      exact .overflow hlt (hcategory _)
    · rw [if_neg hc, if_neg (mt hle hc)]
      exact hrest hc
  · rw [← heq]
    exact .guard (hiff heq) (fun _ => hfault) hrest

end Agree

theorem readWord_of_word? {m : Machine} {index v : Int} (h : m.word? index = some v) :
    readWord index m = .ok v m := by
  rw [readWord, h]

namespace Poised

variable {m : Machine} {p : Program} {size pc sp fp v : Int} {k : Nat}

theorem word?_eq (h : m.Poised p size pc sp fp) (hk : (k : Int) < size) :
    m.word? k = m.stack[k]? := by
  have hsize := h.size
  rw [word?, slot?, if_pos (by omega), if_pos (by omega), Int.toNat_natCast, Option.bind_some]

theorem writeWord_eq (h : m.Poised p size pc sp fp) (hk : (k : Int) < size) (v : Int) :
    writeWord k v m = .ok () { m with stack := m.stack.setIfInBounds k v } := by
  have hsize := h.size
  rw [writeWord, slot?, if_pos (by omega), if_pos (by omega), Int.toNat_natCast]

end Poised

namespace Twin

variable {S : Stage} {V : Shared} {m m' : Machine} {i i' : Instruction} {v v' sp : Int}
  {D : Nat → Prop} {k n : Nat}

theorem slips (h : Twin S V m m') : Slips S V m m' := ⟨V.sp, V.fp, h⟩

/-- The stack pointer may go down. -/
theorem take (h : Twin S V m m') (sp : Int) (hnonneg : 0 ≤ sp) (hle : sp ≤ V.sp) :
    Twin S { V with sp } { m with sp } { m' with sp } :=
  { h with
    left := { h.left with sp := rfl }
    right := { h.right with sp := rfl }
    sp_nonneg := hnonneg
    sp_le := Int.le_trans hle h.sp_le
    words := fun j hj => h.words j (Int.lt_of_lt_of_le hj hle) }

/-- The stack pointer may go down to the base of the frame. -/
theorem unwind (h : Twin S V m m') (hnonneg : 0 ≤ V.fp) (hle : V.fp ≤ V.sp) :
    Twin S { V with sp := V.fp } { m with sp := m.fp } { m' with sp := m'.fp } :=
  { h with
    left := { h.left with sp := h.left.fp }
    right := { h.right with sp := h.right.fp }
    sp_nonneg := hnonneg
    sp_le := Int.le_trans hle h.sp_le
    words := fun j hj => h.words j (Int.lt_of_lt_of_le hj hle) }

/-- A word may be written below the new stack pointer, or right there. -/
theorem set (h : Twin S V m m') (hk : (k : Int) < S.size) (hnonneg : 0 ≤ sp) (hle : sp ≤ S.size)
    (hlive : ∀ j : Nat, (j : Int) < sp → j ≠ k → (j : Int) < V.sp ∧ (D j ↔ V.saved j))
    (hmatch : S.Match (D k) v v') :
    Twin S { V with sp, saved := D } { m with stack := m.stack.setIfInBounds k v, sp }
      { m' with stack := m'.stack.setIfInBounds k v', sp } :=
  { h with
    left := { h.left with sp := rfl, size := Array.size_setIfInBounds.trans h.left.size }
    right := { h.right with sp := rfl, size := Array.size_setIfInBounds.trans h.right.size }
    sp_nonneg := hnonneg
    sp_le := hle
    words := fun j hj => by
      have hsize := h.left.size
      have hsize' := h.right.size
      have hsizes := S.size_le
      by_cases heq : j = k
      · subst heq
        refine ⟨v, v', ?_, ?_, hmatch⟩
        · exact Array.getElem?_setIfInBounds_self_of_lt (by omega)
        · exact Array.getElem?_setIfInBounds_self_of_lt (by omega)
      · obtain ⟨hlt, hiff⟩ := hlive j hj heq
        obtain ⟨w, w', hw, hw', hwords⟩ := h.words j hlt
        refine ⟨w, w', ?_, ?_, hwords.congr hiff⟩
        · exact (Array.getElem?_setIfInBounds_ne (Ne.symm heq)).trans hw
        · exact (Array.getElem?_setIfInBounds_ne (Ne.symm heq)).trans hw' }

theorem write (h : Twin S V m m') (hk : (k : Int) < V.sp) (hmatch : S.Match (V.saved k) v v') :
    Twin S V { m with stack := m.stack.setIfInBounds k v }
      { m' with stack := m'.stack.setIfInBounds k v' } := by
  have hset := h.set (Int.lt_of_lt_of_le hk h.sp_le) h.sp_nonneg h.sp_le
    (fun j hj _ => ⟨hj, Iff.rfl⟩) hmatch
  have hleft (st : Array Int) : { m with stack := st, sp := V.sp } = { m with stack := st } := by
    rw [← h.left.sp]
  have hright (st : Array Int) : { m' with stack := st, sp := V.sp } = { m' with stack := st } := by
    rw [← h.right.sp]
  rwa [hleft, hright] at hset

/-- What is saved above the live words does not matter. -/
theorem resave (h : Twin S V m m') (hsaved : ∀ j : Nat, (j : Int) < V.sp → (D j ↔ V.saved j)) :
    Twin S { V with saved := D } m m' :=
  { h with
    words := fun j hj => by
      obtain ⟨w, w', hw, hw', hmatch⟩ := h.words j hj
      exact ⟨w, w', hw, hw', hmatch.congr (hsaved j hj)⟩ }

theorem goto (h : Twin S V m m') (pc pc' : Int) :
    Twin S { V with pc, pc' } { m with pc } { m' with pc := pc' } :=
  { h with
    left := { h.left with pc := rfl }
    right := { h.right with pc := rfl } }

theorem addStep (h : Twin S V m m') :
    Twin S V { m with steps := m.steps + 1 } { m' with steps := m'.steps + 1 } :=
  { h with
    left := { h.left with }
    right := { h.right with }
    steps := congrArg (· + 1) h.steps }

/-! ## Parts of steps -/

/-- A push may also change which words are saved, the pushed one included. -/
theorem push (h : Twin S V m m') (hsaved : ∀ j : Nat, (j : Int) < V.sp → (D j ↔ V.saved j))
    (hmatch : S.Match (D V.sp.toNat) v v') :
    Agree S (Slips S V)
      (fun _ m₁ _ m₁' => Twin S { V with sp := V.sp + 1, saved := D } m₁ m₁')
      (push i v m) (push i' v' m') := by
  have hnonneg := h.sp_nonneg
  have hsizes := S.size_le
  refine Agree.get_bind ?_
  simp only [h.left.stackSize, h.right.stackSize, h.left.sp, h.right.sp]
  refine Agree.guard_room .overflow (fun _ => rfl) (fun heq => by rw [heq]) (by omega) h.slips
    fun hroom => ?_
  obtain ⟨k, hk⟩ := Int.eq_ofNat_of_zero_le hnonneg
  rw [hk, Int.toNat_natCast] at hmatch
  rw [hk, bind_of_ok (h.left.writeWord_eq (by omega) v),
    bind_of_ok (h.right.writeWord_eq (by omega) v')]
  refine .ok (h.set (by omega) (by omega) (by omega) (fun j hj hne => ?_) hmatch)
  exact ⟨by omega, hsaved j (by omega)⟩

theorem push_same (h : Twin S V m m') (hfree : V.Free 0) (v : Int) :
    Agree S (Slips S V) (fun _ m₁ _ m₁' => Twin S { V with sp := V.sp + 1 } m₁ m₁')
      (Machine.push i v m) (Machine.push i' v m') := by
  have hnonneg := h.sp_nonneg
  exact h.push (fun _ _ => Iff.rfl) (Stage.match_self (hfree _ (by omega)) v)

theorem exists_word? (h : Twin S V m m') (hk : (k : Int) < V.sp) :
    ∃ v v', m.word? k = some v ∧ m'.word? k = some v' ∧ S.Match (V.saved k) v v' := by
  have hle := h.sp_le
  have hsizes := S.size_le
  obtain ⟨v, v', hv, hv', hmatch⟩ := h.words k hk
  exact ⟨v, v', (h.left.word?_eq (by omega)).trans hv, (h.right.word?_eq (by omega)).trans hv',
    hmatch⟩

/-- A pop may take a saved word. -/
theorem pop (h : Twin S V m m') :
    Agree S (Slips S V)
      (fun v m₁ v' m₁' => 0 < V.sp ∧ S.Match (V.saved (V.sp - 1).toNat) v v' ∧
        Twin S { V with sp := V.sp - 1 } m₁ m₁')
      (pop i m) (pop i' m') := by
  refine Agree.get_bind ?_
  simp only [h.left.sp, h.right.sp]
  refine Agree.guard Iff.rfl (fun _ => h.slips) fun hpos => ?_
  have hlow := h.take (V.sp - 1) (by omega) (by omega)
  obtain ⟨k, hk⟩ := Int.eq_ofNat_of_zero_le (a := V.sp - 1) (by omega)
  obtain ⟨v, v', hv, hv', hmatch⟩ := h.exists_word? (k := k) (by omega)
  rw [hk] at hlow ⊢
  change Agree _ _ _ (readWord k { m with sp := k }) (readWord k { m' with sp := k })
  rw [readWord_of_word? (m := { m with sp := k }) hv,
    readWord_of_word? (m := { m' with sp := k }) hv']
  exact .ok ⟨by omega, hmatch, hlow⟩

/-- A pop that takes no saved word. -/
theorem pop_same (h : Twin S V m m') (hfree : V.Free (n + 1)) :
    Agree S (Slips S V)
      (fun v m₁ v' m₁' => v' = v ∧ 0 < V.sp ∧ ({ V with sp := V.sp - 1 } : Shared).Free n ∧
        Twin S { V with sp := V.sp - 1 } m₁ m₁')
      (Machine.pop i m) (Machine.pop i' m') := by
  refine h.pop.imp (fun v m₁ v' m₁' => ?_) fun _ _ => id
  rintro ⟨hpos, hmatch, htwin⟩
  refine ⟨hmatch.2 (hfree _ (by omega)), hpos, fun k hk => hfree k ?_, htwin⟩
  simp only at hk
  omega

theorem top (h : Twin S V m m') (hfree : V.Free 1) :
    Agree S (Slips S V) (fun v m₁ v' m₁' => v' = v ∧ Twin S V m₁ m₁') (top i m) (top i' m') := by
  refine Agree.get_bind ?_
  simp only [h.left.sp, h.right.sp]
  refine Agree.guard Iff.rfl (fun _ => h.slips) fun hpos => ?_
  obtain ⟨k, hk⟩ := Int.eq_ofNat_of_zero_le (a := V.sp - 1) (by omega)
  obtain ⟨v, v', hv, hv', hmatch⟩ := h.exists_word? (k := k) (by omega)
  rw [hk, readWord_of_word? hv, readWord_of_word? hv']
  exact .ok ⟨hmatch.2 (hfree k (by omega)), h⟩

theorem checkLive (h : Twin S V m m') (address : Int) :
    Agree S (Slips S V)
      (fun _ m₁ _ m₁' => (0 ≤ address ∧ address < V.sp) ∧ Twin S V m₁ m₁')
      (checkLive i address m) (checkLive i' address m') := by
  change Agree _ _ _ ((if ¬(0 ≤ address ∧ address < m.sp) then
    fault i (.outsideStack address m.sp) else pure ()) m) ((if ¬(0 ≤ address ∧ address < m'.sp) then
    fault i' (.outsideStack address m'.sp) else pure ()) m')
  rw [h.left.sp, h.right.sp]
  by_cases hlive : 0 ≤ address ∧ address < V.sp
  · rw [if_neg (not_not_intro hlive), if_neg (not_not_intro hlive)]
    exact .ok ⟨hlive, h⟩
  · rw [if_pos hlive, if_pos hlive]
    exact .fault h.slips

/-! ## Operations -/

theorem advance (h : Twin S V m m') :
    Agree S (Slips S V)
      (fun _ m₁ _ m₁' => Twin S { V with pc := V.pc + 1, pc' := V.pc' + 1 } m₁ m₁')
      (advance m) (advance m') := by
  have hnext := h.goto (V.pc + 1) (V.pc' + 1)
  rw [← h.left.pc, ← h.right.pc] at hnext ⊢
  exact .ok hnext

/-- Two machines that have gone on to the next address with `n` words more. -/
def GoesOn (S : Stage) (V : Shared) (n : Int) : Unit → Machine → Unit → Machine → Prop :=
  fun _ m₁ _ m₁' => Twin S { V with pc := V.pc + 1, pc' := V.pc' + 1, sp := V.sp + n } m₁ m₁'

theorem push_advance (h : Twin S V m m') (hfree : V.Free 0) (v : Int) :
    Agree S (Slips S V) (GoesOn S V 1)
      ((Machine.push i v >>= fun _ => Machine.advance) m)
      ((Machine.push i' v >>= fun _ => Machine.advance) m') :=
  (h.push_same hfree v).bind fun _ _ _ _ h₁ => h₁.advance

theorem load (h : Twin S V m m') (hfree : V.Free 0) {address : Int}
    (haddress : ∀ k : Nat, address = k → ¬V.saved k) :
    Agree S (Slips S V) (GoesOn S V 1) (load i address m) (load i' address m') := by
  refine (h.checkLive address).bind fun _ m₁ _ m₁' => ?_
  rintro ⟨⟨hnonneg, hlt⟩, h₁⟩
  obtain ⟨k, rfl⟩ := Int.eq_ofNat_of_zero_le hnonneg
  obtain ⟨v, v', hv, hv', hmatch⟩ := h₁.exists_word? hlt
  rw [bind_of_ok (readWord_of_word? hv), bind_of_ok (readWord_of_word? hv'),
    hmatch.2 (haddress k rfl)]
  exact h₁.push_advance hfree v

theorem store (h : Twin S V m m') (hfree : V.Free 1) {address : Int}
    (haddress : ∀ k : Nat, address = k → ¬V.saved k) :
    Agree S (Slips S V) (GoesOn S V (-1)) (store i address m) (store i' address m') := by
  refine (h.pop_same hfree).bind fun v m₁ v' m₁' => ?_
  rintro ⟨rfl, hpos, -, h₁⟩
  refine (h₁.checkLive address).bind fun _ m₂ _ m₂' => ?_
  rintro ⟨⟨hnonneg, hlt⟩, h₂⟩
  obtain ⟨k, rfl⟩ := Int.eq_ofNat_of_zero_le hnonneg
  have hle := h₂.sp_le
  have hsizes := S.size_le
  simp only at hle hlt
  rw [bind_of_ok (h₂.left.writeWord_eq (by omega) v'),
    bind_of_ok (h₂.right.writeWord_eq (by omega) v')]
  exact (h₂.write hlt (Stage.match_self (haddress k rfl) v')).advance

theorem load_offset (h : Twin S V m m') (hfree : V.Free 0) {offset : Int}
    (haddress : ∀ k : Nat, V.fp + offset = k → ¬V.saved k) :
    Agree S (Slips S V) (GoesOn S V 1) ((get >>= fun x => Machine.load i (x.fp + offset)) m)
      ((get >>= fun x => Machine.load i' (x.fp + offset)) m') := by
  refine Agree.get_bind ?_
  rw [h.left.fp, h.right.fp]
  exact h.load hfree haddress

theorem store_offset (h : Twin S V m m') (hfree : V.Free 1) {offset : Int}
    (haddress : ∀ k : Nat, V.fp + offset = k → ¬V.saved k) :
    Agree S (Slips S V) (GoesOn S V (-1)) ((get >>= fun x => Machine.store i (x.fp + offset)) m)
      ((get >>= fun x => Machine.store i' (x.fp + offset)) m') := by
  refine Agree.get_bind ?_
  rw [h.left.fp, h.right.fp]
  exact h.store hfree haddress

theorem drop (h : Twin S V m m') (hfree : V.Free 1) :
    Agree S (Slips S V) (GoesOn S V (-1))
      ((Machine.pop i >>= fun _ => Machine.advance) m)
      ((Machine.pop i' >>= fun _ => Machine.advance) m') :=
  (h.pop_same hfree).bind fun _ _ _ _ h₁ => h₁.2.2.2.advance

theorem negate (h : Twin S V m m') (hfree : V.Free 1) :
    Agree S (Slips S V) (GoesOn S V 0)
      ((Machine.pop i >>= fun v => Machine.push i (Word.wrap (-v)) >>= fun _ => Machine.advance) m)
      ((Machine.pop i' >>= fun v => Machine.push i' (Word.wrap (-v)) >>= fun _ =>
        Machine.advance) m') := by
  refine (h.pop_same hfree).bind fun v m₁ v' m₁' => ?_
  rintro ⟨rfl, -, hfree₁, h₁⟩
  refine (h₁.push_advance hfree₁ _).imp (fun _ _ _ _ h₂ => ?_) fun _ _ => id
  simpa [GoesOn] using h₂

theorem compute (h : Twin S V m m') (hfree : V.Free 2) (op : Operator) :
    Agree S (Slips S V) (GoesOn S V (-1)) (compute i op m) (compute i' op m') := by
  refine (h.pop_same hfree).bind fun right m₁ right' m₁' => ?_
  rintro ⟨rfl, -, hfree₁, h₁⟩
  refine (h₁.pop_same hfree₁).bind fun left m₂ left' m₂' => ?_
  rintro ⟨rfl, -, hfree₂, h₂⟩
  cases op.compute? left' right' with
  | none => exact .fault h₂.slips
  | some v =>
    refine (h₂.push_advance hfree₂ v).imp (fun _ _ _ _ h₃ => ?_) fun _ _ => id
    simpa [GoesOn, Int.sub_eq_add_neg, Int.add_assoc] using h₃

theorem print (h : Twin S V m m') (hfree : V.Free 1) :
    Agree S (Slips S V) (GoesOn S V 0)
      ((Machine.top i >>= fun v => Machine.writeLine (Text.decimal v) >>= fun _ =>
        Machine.advance) m)
      ((Machine.top i' >>= fun v => Machine.writeLine (Text.decimal v) >>= fun _ =>
        Machine.advance) m') := by
  refine (h.top hfree).bind fun v m₁ v' m₁' => ?_
  rintro ⟨rfl, h₁⟩
  have hlines : Twin S V { m₁ with output := m₁.output.push (Text.decimal v') }
      { m₁' with output := m₁'.output.push (Text.decimal v') } :=
    { h₁ with
      left := { h₁.left with }
      right := { h₁.right with }
      output := by rw [h₁.output] }
  refine hlines.advance.imp (fun _ _ _ _ h₂ => ?_) fun _ _ => id
  simpa [GoesOn] using h₂

theorem jump (h : Twin S V m m') {target target' : Nat} (htarget : target < S.program.size)
    (htarget' : target' < S.program'.size) :
    Agree S (Slips S V) (fun _ m₁ _ m₁' => Twin S { V with pc := target, pc' := target' } m₁ m₁')
      (jump i target m) (jump i' target' m') := by
  refine Agree.get_bind ?_
  simp only [h.left.program, h.right.program]
  rw [if_neg (by omega), if_neg (by omega)]
  exact .ok (h.goto target target')

theorem jumpIfZero (h : Twin S V m m') (hfree : V.Free 1) {target target' : Nat}
    (htarget : target < S.program.size) (htarget' : target' < S.program'.size) :
    Agree S (Slips S V)
      (fun _ m₁ _ m₁' => GoesOn S V (-1) () m₁ () m₁' ∨
        Twin S { V with pc := target, pc' := target', sp := V.sp - 1 } m₁ m₁')
      ((Machine.pop i >>= fun v =>
        if v = 0 then Machine.jump i target else Machine.advance) m)
      ((Machine.pop i' >>= fun v =>
        if v = 0 then Machine.jump i' target' else Machine.advance) m') := by
  refine (h.pop_same hfree).bind fun v m₁ v' m₁' => ?_
  rintro ⟨rfl, -, -, h₁⟩
  by_cases hzero : v' = 0
  · rw [if_pos hzero, if_pos hzero]
    exact (h₁.jump htarget htarget').imp (fun _ _ _ _ => .inr) fun _ _ => id
  · rw [if_neg hzero, if_neg hzero]
    exact h₁.advance.imp (fun _ _ _ _ => .inl) fun _ _ => id

theorem enter (h : Twin S V m m') (hfree : V.Free 0) (locals : Nat) :
    Agree S (Slips S V) (GoesOn S V locals) (enter i locals m) (enter i' locals m') := by
  have hnonneg := h.sp_nonneg
  have hsizes := S.size_le
  have hsize := h.left.size
  have hsize' := h.right.size
  refine Agree.get_bind ?_
  simp only [h.left.stackSize, h.right.stackSize, h.left.sp, h.right.sp]
  refine Agree.guard_room (.localsOverflow locals) (fun _ => rfl)
    (fun heq => by rw [heq]) (by omega) h.slips fun hroom => ?_
  rw [if_neg (by omega), if_neg (by omega)]
  obtain ⟨k, hk⟩ := Int.eq_ofNat_of_zero_le hnonneg
  obtain ⟨stack, hclear, hstack, hwords⟩ := exists_clear m k locals (by omega)
  obtain ⟨stack', hclear', hstack', hwords'⟩ := exists_clear m' k locals (by omega)
  rw [hk, Int.toNat_natCast, bind_of_ok hclear, bind_of_ok hclear']
  have hraised : Twin S { V with sp := V.sp + locals }
      { m with stack, sp := k + locals } { m' with stack := stack', sp := k + locals } :=
    { h with
      left := { h.left with sp := by rw [hk], size := hstack.trans hsize }
      right := { h.right with sp := by rw [hk], size := hstack'.trans hsize' }
      sp_nonneg := by simp only; omega
      sp_le := by simp only; omega
      words := fun j hj => by
        simp only at hj
        by_cases hlive : j < k
        · obtain ⟨v, v', hv, hv', hmatch⟩ := h.words j (by omega)
          refine ⟨v, v', ?_, ?_, hmatch⟩
          · rw [hwords j, if_neg (by omega), hv]
          · rw [hwords' j, if_neg (by omega), hv']
        · refine ⟨0, 0, ?_, ?_, Stage.match_self (hfree j (by omega)) 0⟩
          · rw [hwords j, if_pos (by omega)]
          · rw [hwords' j, if_pos (by omega)] }
  exact hraised.advance

/-- A call saves the addresses behind it. -/
theorem call (h : Twin S V m m') (hfree : V.Free 0) {target target' next next' : Nat}
    (htarget : target < S.program.size) (htarget' : target' < S.program'.size)
    (hpc : V.pc + 1 = next) (hpc' : V.pc' + 1 = next') (hnext : S.Related next next') :
    Agree S (Slips S { V with saved := fun k => V.saved k ∨ (k : Int) = V.sp })
      (fun _ m₁ _ m₁' => Twin S
        { pc := target, pc' := target', sp := V.sp + 2, fp := V.sp + 2
          saved := fun k => V.saved k ∨ (k : Int) = V.sp } m₁ m₁')
      (call i target m) (call i' target' m') := by
  have hnonneg := h.sp_nonneg
  have hsaves := h.resave (D := fun k => V.saved k ∨ (k : Int) = V.sp) fun j hj =>
    or_iff_left (Int.ne_of_lt hj)
  refine Agree.get_bind ?_
  simp only [h.left.program, h.right.program, h.left.pc, h.right.pc, h.left.fp, h.right.fp]
  rw [if_neg (by omega), if_neg (by omega)]
  have hmatch : S.Match (V.saved V.sp.toNat ∨ (V.sp.toNat : Int) = V.sp) (V.pc + 1)
      (V.pc' + 1) :=
    ⟨fun _ => ⟨next, next', hpc, hpc', hnext⟩, fun hnot => absurd (.inr (by omega)) hnot⟩
  refine (hsaves.push (fun _ _ => Iff.rfl) hmatch).bind fun _ m₁ _ m₁' h₁ => ?_
  have hfree₁ : Shared.Free
      { V with sp := V.sp + 1, saved := fun k => V.saved k ∨ (k : Int) = V.sp } 0 := by
    intro k hk
    simp only at hk
    exact not_or_intro (hfree k (by omega)) (by omega)
  refine (h₁.push_same hfree₁ V.fp).bind fun _ m₂ _ m₂' h₂ => ?_
  have hsum : V.sp + 1 + 1 = V.sp + 2 := by omega
  rw [hsum] at h₂
  exact .ok
    { h₂ with
      left := { h₂.left with pc := rfl, fp := h₂.left.sp }
      right := { h₂.right with pc := rfl, fp := h₂.right.sp } }

/-- A call of nothing. -/
theorem call_of_negative (h : Twin S V m m') {target : Int} (htarget : target < 0)
    {Q : Unit → Machine → Unit → Machine → Prop} :
    Agree S (Slips S V) Q (Machine.call i target m) (Machine.call i' target m') := by
  refine Agree.get_bind ?_
  rw [if_pos (by omega), if_pos (by omega)]
  exact .fault h.slips

/-- A return takes the addresses that the call has saved. -/
theorem giveBack (h : Twin S V m m') (hfree : V.Free 1) {base n : Nat} (hfp : V.fp = base)
    (hbase : 2 ≤ base) (hlive : (base : Int) < V.sp) (hreturn : V.saved (base - 2))
    (hcaller : ¬V.saved (base - 1))
    (hsaved : ∀ j : Nat, j < base - 2 - n → (D j ↔ V.saved j)) (hvalue : ¬D (base - 2 - n)) :
    Agree S (Slips S V)
      (fun _ m₁ _ m₁' => ∃ (a a' : Nat) (sp fp : Int), S.Related a a' ∧
        Twin S { pc := a, pc' := a', sp, fp, saved := D } m₁ m₁')
      (giveBack i n m) (giveBack i' n m') := by
  refine (h.pop_same hfree).bind fun v m₁ v' m₁' => ?_
  rintro ⟨rfl, -, -, h₁⟩
  refine Agree.bind (Q := fun _ m₂ _ m₂' => Twin S { V with sp := V.fp } m₂ m₂')
    (.ok (h₁.unwind (by simp only; omega) (by simp only; omega))) fun _ m₂ _ m₂' h₂ => ?_
  refine h₂.pop.bind fun fp m₃ fp' m₃' => ?_
  rintro ⟨-, hmatch, h₃⟩
  have hindex : (V.fp - 1).toNat = base - 1 := by omega
  simp only [hindex] at hmatch
  obtain rfl := hmatch.2 hcaller
  have hframe : Twin S { V with sp := V.fp - 1, fp := fp' } { m₃ with fp := fp' }
      { m₃' with fp := fp' } :=
    { h₃ with
      left := { h₃.left with fp := rfl }
      right := { h₃.right with fp := rfl } }
  refine Agree.bind (Q := fun _ m₄ _ m₄' => Twin S { V with sp := V.fp - 1, fp := fp' } m₄ m₄')
    (.ok hframe) fun _ m₄ _ m₄' h₄ => ?_
  refine h₄.pop.bind fun address m₅ address' m₅' => ?_
  rintro ⟨-, hmatch, h₅⟩
  have hindex' : (V.fp - 1 - 1).toNat = base - 2 := by omega
  simp only [hindex'] at hmatch h₅
  obtain ⟨a, a', rfl, rfl, hrelated⟩ := hmatch.1 hreturn
  refine Agree.get_bind ?_
  simp only [h₅.left.sp, h₅.right.sp]
  refine Agree.guard Iff.rfl (fun _ => h₅.slips) fun hargs => ?_
  have h₆ := h₅.take (V.fp - 1 - 1 - n) (by omega) (by simp only; omega)
  refine Agree.bind (Q := fun _ m₆ _ m₆' =>
    Twin S { V with sp := V.fp - 1 - 1 - n, fp := fp' } m₆ m₆') (.ok h₆) fun _ m₆ _ m₆' h₆ => ?_
  have hindex'' : (V.fp - 1 - 1 - n).toNat = base - 2 - n := by omega
  refine (h₆.push (D := D) (fun j hj => hsaved j (by simp only at hj; omega)) ?_).bind
    fun _ m₇ _ m₇' h₇ => .ok ⟨a, a', _, _, hrelated, h₇.goto a a'⟩
  rw [hindex'']
  exact Stage.match_self hvalue v'

theorem halt (h : Twin S V m m') :
    Twin S V { m with running := false } { m' with running := false } :=
  { h with
    left := { h.left with }
    right := { h.right with }
    running := rfl }

end Twin

end Machine

end StackLang
