import StackLang.Machine.Step
import StackLang.Proofs.Activation

/-!
# The machine carries out configurations

A machine shows a configuration if its registers and its live words are those of the configuration.
Then a step of the configuration is a step of the machine, unless the stack has no room for the
words of the next configuration: in that case, and in no other, the machine overflows.
-/

namespace StackLang.Machine

/-- The live words of a machine, from the bottom to the top; nothing is said about those above. -/
structure Holds (m : Machine) (ws : List Int) : Prop where
  sp : m.sp = ws.length
  size : m.stack.size = m.options.stackSize.toNat
  fits : (ws.length : Int) ≤ m.options.stackSize
  words : ∀ i < ws.length, m.stack[i]? = ws[i]?

/-! ## Parts of steps -/

section Exec

variable {α β : Type} {x : Exec α} {f : α → Exec β} {m m' : Machine}

theorem bind_of_ok {a : α} (h : x m = .ok a m') : (x >>= f) m = f a m' := by
  simp only [bind, EStateM.bind, h]

theorem get_bind (f : Machine → Exec β) (m : Machine) : (get >>= f) m = f m m := rfl

theorem bind_of_error {e : Stop} (h : x m = .error e m') : (x >>= f) m = .error e m' := by
  simp only [bind, EStateM.bind, h]

end Exec

variable {m : Machine} {ws : List Int} {i : Instruction} {v : Int}

theorem Holds.length_le_size (h : m.Holds ws) : ws.length ≤ m.stack.size := by
  have hfits := h.fits
  rw [h.size]
  omega

theorem Holds.word? (h : m.Holds ws) {k : Nat} (hk : k < ws.length) : m.word? k = ws[k]? := by
  have hsize := h.length_le_size
  rw [Machine.word?, slot?_ofNat (by omega), Option.bind_some, h.words k hk]

theorem readWord_of_holds (h : m.Holds ws) {k : Nat} (hv : ws[k]? = some v) :
    readWord k m = .ok v m := by
  have hk : k < ws.length := (List.getElem?_eq_some_iff.mp hv).1
  rw [readWord, h.word? hk, hv]

/-- The live words depend on the stack and its pointer only. -/
theorem Holds.congr {m' : Machine} (h : m.Holds ws) (hsp : m'.sp = m.sp)
    (hstack : m'.stack = m.stack) (hoptions : m'.options = m.options) : m'.Holds ws :=
  ⟨hsp.trans h.sp, by rw [hstack, hoptions, h.size], by rw [hoptions]; exact h.fits,
    by rw [hstack]; exact h.words⟩

/-- Lowering the stack pointer keeps the words below it. -/
theorem Holds.take {us : List Int} (h : m.Holds (ws ++ us)) :
    Holds { m with sp := ws.length } ws := by
  refine ⟨rfl, h.size, ?_, ?_⟩
  · have hfits := h.fits
    simp only [List.length_append] at hfits
    change (ws.length : Int) ≤ m.options.stackSize
    omega
  · intro k hk
    have hword := h.words k (by simp only [List.length_append]; omega)
    rw [List.getElem?_append_left hk] at hword
    exact hword

/-- Writing a live word. -/
theorem Holds.set (h : m.Holds ws) (k : Nat) (v : Int) :
    Holds { m with stack := m.stack.setIfInBounds k v } (ws.set k v) := by
  refine ⟨by simpa using h.sp, by simpa using h.size, by simpa using h.fits, ?_⟩
  intro j hj
  have hword := h.words j (by simpa using hj)
  have hsize := h.length_le_size
  simp only [List.length_set] at hj
  rw [Array.getElem?_setIfInBounds, List.getElem?_set]
  by_cases hkj : k = j
  · subst hkj
    simp [hj, Nat.lt_of_lt_of_le hj hsize]
  · simp [hkj, hword]

/-- Writing the word above the live ones and counting it in. -/
theorem Holds.push (h : m.Holds ws) (v : Int) (hroom : (ws.length : Int) < m.options.stackSize) :
    Holds { m with stack := m.stack.setIfInBounds ws.length v, sp := m.sp + 1 } (ws ++ [v]) := by
  have hsize : ws.length < m.stack.size := by
    rw [h.size]
    omega
  refine ⟨by simp [h.sp], by simpa using h.size, by simpa [Int.add_one_le_iff] using hroom, ?_⟩
  intro k hk
  simp only [List.length_append, List.length_singleton] at hk
  rw [Array.getElem?_setIfInBounds]
  by_cases hlast : ws.length = k
  · subst hlast
    simp [hsize]
  · have hk' : k < ws.length := by omega
    rw [if_neg hlast, List.getElem?_append_left hk', h.words k hk']

theorem push_of_holds (h : m.Holds ws) (hroom : (ws.length : Int) < m.options.stackSize) :
    push i v m =
      .ok () { m with stack := m.stack.setIfInBounds ws.length v, sp := m.sp + 1 } := by
  have hsp : ¬m.options.stackSize ≤ (ws.length : Int) := by omega
  have hslot : slot? m.stack.size (ws.length : Int) = some ws.length := by
    apply slot?_ofNat
    rw [h.size]
    omega
  rw [Machine.push, get_bind]
  simp [bind, EStateM.bind, h.sp, hsp, writeWord, hslot, setSp]

theorem push_overflows (h : m.Holds ws) (hfull : m.options.stackSize ≤ (ws.length : Int)) :
    push i v m = .error (.fault ⟨.overflow m.options.stackSize, m.pc, some i⟩)
      { m with running := false } := by
  rw [Machine.push, get_bind]
  simp [bind, EStateM.bind, h.sp, hfull, fault]

theorem pop_of_holds (h : m.Holds (ws ++ [v])) : pop i m = .ok v { m with sp := ws.length } := by
  have hpos : ¬((ws.length : Int) + 1 ≤ 0) := by omega
  have hdown : Holds { m with sp := ws.length } ws := h.take
  have hsub : ((ws.length : Int) + 1 - 1) = ws.length := by omega
  have hread : Machine.word? { m with sp := ws.length } ws.length = some v := by
    have hword := h.word? (k := ws.length) (by simp)
    simpa [Machine.word?] using hword
  rw [Machine.pop, get_bind]
  simp [bind, EStateM.bind, h.sp, hpos, setSp, readWord, hsub, hread]

theorem top_of_holds (h : m.Holds (ws ++ [v])) : top i m = .ok v m := by
  have hpos : ¬((ws.length : Int) + 1 ≤ 0) := by omega
  have hsub : ((ws.length : Int) + 1 - 1) = ws.length := by omega
  have hread : m.word? ws.length = some v := by
    rw [h.word? (by simp)]
    simp
  rw [Machine.top, get_bind]
  simp [h.sp, hpos, readWord, hsub, hread]

theorem checkLive_of_holds (h : m.Holds ws) {k : Nat} (hk : k < ws.length) :
    checkLive i k m = .ok () m := by
  have hlive : ¬ws.length ≤ k := by omega
  rw [checkLive, get_bind]
  simp [h.sp, hlive, pure, EStateM.pure]

theorem checkLive_of_negative {address : Int} (h : address < 0) :
    checkLive i address m =
      .error (.fault ⟨.outsideStack address m.sp, m.pc, some i⟩) { m with running := false } := by
  have hdead : ¬0 ≤ address := by omega
  rw [checkLive, get_bind]
  simp [hdead, fault]

theorem writeWord_of_holds (h : m.Holds ws) {k : Nat} (hk : k < ws.length) :
    writeWord k v m = .ok () { m with stack := m.stack.setIfInBounds k v } := by
  have hsize := h.length_le_size
  rw [writeWord, slot?_ofNat (by omega)]

theorem load_of_holds (h : m.Holds ws) {k : Nat} (hv : ws[k]? = some v) :
    load i k m = (push i v >>= fun _ => advance) m := by
  have hk : k < ws.length := (List.getElem?_eq_some_iff.mp hv).1
  rw [load, bind_of_ok (checkLive_of_holds h hk), bind_of_ok (readWord_of_holds h hv)]

theorem store_of_holds (h : m.Holds (ws ++ [v])) {k : Nat} (hk : k < ws.length) :
    store i k m = .ok ()
      { m with sp := ws.length, stack := m.stack.setIfInBounds k v, pc := m.pc + 1 } := by
  rw [store, bind_of_ok (pop_of_holds h), bind_of_ok (checkLive_of_holds h.take hk),
    bind_of_ok (writeWord_of_holds h.take hk)]
  rfl

theorem jump_of_target {target : Int} (h : 0 ≤ target ∧ target < m.program.size) :
    jump i target m = .ok () { m with pc := target } := by
  have hlow : ¬target < 0 := by omega
  have hhigh : ¬(m.program.size : Int) < target := by omega
  rw [jump, get_bind]
  simp [goto, hlow, hhigh]

theorem call_of_target {target : Int} (h : 0 ≤ target ∧ target < m.program.size) :
    call i target m = (push i (m.pc + 1) >>= fun _ => push i m.fp >>= fun _ =>
      modify fun m => { m with fp := m.sp, pc := target }) m := by
  have hlow : ¬target < 0 := by omega
  have hhigh : ¬(m.program.size : Int) ≤ target := by omega
  rw [call, get_bind]
  simp [bind, EStateM.bind, hlow, hhigh]

theorem call_of_negative {target : Int} (h : target < 0) :
    call i target m =
      .error (.fault ⟨.callTarget target, m.pc, some i⟩) { m with running := false } := by
  have hlow : ¬0 ≤ target := by omega
  rw [call, get_bind]
  simp [bind, EStateM.bind, hlow, fault]

/-! ## Configurations -/

/-- A machine is in a configuration. -/
structure Shows (m : Machine) (c : Config) : Prop where
  pc : m.pc = c.pc
  fp : m.fp = c.base
  holds : m.Holds c.words
  output : m.output.toList = c.output

/-- What no step changes. -/
structure Keeps (m m' : Machine) : Prop where
  options : m'.options = m.options
  program : m'.program = m.program
  running : m'.running = m.running

/-- A part of a step that starts on `m` ends in the configuration `c`, or in an overflow if there is
no room for it. -/
def Arrives (m : Machine) (c : Config) (r : EStateM.Result Stop Machine Unit) : Prop :=
  if (c.height : Int) ≤ m.options.stackSize then
    ∃ m', r = .ok () m' ∧ m'.Shows c ∧ m.Keeps m'
  else
    ∃ f m', r = .error (.fault f) m' ∧ f.cause.category = .stackOverflow ∧ m'.output = m.output

theorem Arrives.of_ok {c : Config} {r : EStateM.Result Stop Machine Unit} {m' : Machine}
    (hr : r = .ok () m') (hshows : m'.Shows c) (hkeeps : m.Keeps m') : m.Arrives c r := by
  have hfits := hshows.holds.fits
  rw [Config.length_words, hkeeps.options] at hfits
  rw [Arrives, if_pos hfits]
  exact ⟨m', hr, hshows, hkeeps⟩

theorem Keeps.trans {m₁ m₂ : Machine} (h : m.Keeps m₁) (h' : m₁.Keeps m₂) : m.Keeps m₂ :=
  ⟨h'.options.trans h.options, h'.program.trans h.program, h'.running.trans h.running⟩

/-- What comes before a part of a step does not matter if it only moves words. -/
theorem Arrives.after {c : Config} {r : EStateM.Result Stop Machine Unit} {m₁ : Machine}
    (h : m₁.Arrives c r) (hkeeps : m.Keeps m₁) (houtput : m₁.output = m.output) :
    m.Arrives c r := by
  rw [Arrives, hkeeps.options] at h
  rw [Arrives]
  split at h
  · rename_i hroom
    obtain ⟨m', hr, hshows, hkeeps'⟩ := h
    rw [if_pos hroom]
    exact ⟨m', hr, hshows, hkeeps.trans hkeeps'⟩
  · rename_i hroom
    obtain ⟨f, m', hr, hcategory, houtput'⟩ := h
    rw [if_neg hroom]
    exact ⟨f, m', hr, hcategory, houtput'.trans houtput⟩

/-- Pushing a word leads to the configuration with this word on top. -/
theorem arrives_push {c : Config} (hpc : m.pc + 1 = c.pc) (hfp : m.fp = c.base)
    (h : m.Holds ws) (hwords : c.words = ws ++ [v]) (houtput : m.output.toList = c.output) :
    m.Arrives c ((push i v >>= fun _ => advance) m) := by
  have hheight : c.height = ws.length + 1 := by
    rw [← Config.length_words, hwords, List.length_append, List.length_singleton]
  by_cases hroom : (ws.length : Int) < m.options.stackSize
  · refine Arrives.of_ok (bind_of_ok (push_of_holds h hroom)) ⟨?_, hfp, ?_, houtput⟩ ⟨rfl, rfl, rfl⟩
    · exact hpc
    · have hpush := h.push v hroom
      rw [hwords]
      exact hpush.congr rfl rfl rfl
  · have hheight' : ¬(c.height : Int) ≤ m.options.stackSize := by omega
    rw [Arrives, if_neg hheight']
    exact ⟨_, _, bind_of_error (push_overflows h (by omega)), rfl, rfl⟩

/-! ## Operations -/

variable {c c' : Config} {ts : List Int}

theorem Shows.holds_cons (h : m.Shows c) (hts : c.activation.temps = v :: ts) :
    m.Holds ((c.advance ts).words ++ [v]) := by
  rw [← Config.words_of_temps_cons hts]
  exact h.holds

theorem Shows.arrives_push (h : m.Shows c) (v : Int) :
    m.Arrives (c.advance (v :: c.activation.temps)) ((push i v >>= fun _ => advance) m) := by
  refine Machine.arrives_push ?_ ?_ h.holds ?_ h.output
  · rw [h.pc]
    rfl
  · rw [h.fp, Config.base_advance]
  · rw [Config.words_advance_cons, Config.words_advance_temps]

/-- After the topmost words were popped, the machine pushes a word in their place. -/
theorem Shows.arrives_replace (h : m.Shows c) {us : List Int}
    (hus : c.words = (c.advance ts).words ++ us) (v : Int) :
    m.Arrives (c.advance (v :: ts))
      ((push i v >>= fun _ => advance) { m with sp := (c.advance ts).words.length }) := by
  have hholds := h.holds
  rw [hus] at hholds
  refine Arrives.after (Machine.arrives_push (c := c.advance (v :: ts)) ?_ ?_ hholds.take ?_
    h.output) ⟨rfl, rfl, rfl⟩ rfl
  · change m.pc + 1 = _
    rw [h.pc]
    rfl
  · change m.fp = _
    rw [h.fp, Config.base_advance]
  · exact Config.words_advance_cons c v ts

/-- After the topmost word was popped, the machine goes on with the next instruction. -/
theorem Shows.popped (h : m.Shows c) (hts : c.activation.temps = v :: ts) (pc : Nat) :
    Shows { m with sp := (c.advance ts).words.length, pc := pc }
      { c.advance ts with pc := pc } := by
  have hholds := (h.holds_cons hts).take
  have hfp : m.fp = (c.advance ts).base := by rw [h.fp, Config.base_advance]
  exact ⟨rfl, hfp, hholds.congr rfl rfl rfl, h.output⟩

theorem Shows.arrives_load (h : m.Shows c) {offset : Int} {cell : Activation.Cell}
    (hcell : c.activation.cell? offset = some cell) :
    m.Arrives (c.advance (c.activation.read cell :: c.activation.temps))
      (load i (m.fp + offset) m) := by
  have haddress := Activation.base_add_of_cell? hcell c.globals.length
  have hword : c.words[c.globals.length + c.activation.place c.globals.length cell]? =
      some (c.activation.read cell) := by
    have hfixed := Activation.fixed_getElem?_of_cell? hcell c.globals.length
    have hlt := (List.getElem?_eq_some_iff.mp hfixed).1
    rw [Config.words, List.getElem?_append_right (Nat.le_add_right _ _), Nat.add_sub_cancel_left,
      Activation.words, List.getElem?_append_left hlt, hfixed]
  have hfp : m.fp + offset =
      ((c.globals.length + c.activation.place c.globals.length cell : Nat) : Int) := by
    rw [h.fp, Config.base, haddress]
    simp
  rw [hfp, load_of_holds h.holds hword]
  exact h.arrives_push _

theorem Shows.arrives_loadGlobal (h : m.Shows c) {slot : Int}
    (hslot : 0 ≤ slot ∧ slot < c.globals.length) :
    m.Arrives (c.advance (c.globals[slot.toNat]?.getD 0 :: c.activation.temps))
      (load i slot m) := by
  have hlt : slot.toNat < c.globals.length := by omega
  have hword : c.words[slot.toNat]? = some (c.globals[slot.toNat]?.getD 0) := by
    rw [Config.words, List.getElem?_append_left hlt, List.getElem?_eq_getElem hlt,
      Option.getD_some]
  have hcast : slot = (slot.toNat : Int) := by omega
  rw [hcast, load_of_holds h.holds hword]
  exact h.arrives_push _

theorem Shows.arrives_store (h : m.Shows c) {offset : Int} {cell : Activation.Cell}
    (hcell : c.activation.cell? offset = some cell) (hts : c.activation.temps = v :: ts) :
    m.Arrives { c.advance ts with activation := (c.activation.withTemps ts).write cell v }
      (store i (m.fp + offset) m) := by
  have hholds := h.holds_cons hts
  have hcell' : (c.activation.withTemps ts).cell? offset = some cell := by
    rw [Activation.cell?_withTemps, hcell]
  have haddress := Activation.base_add_of_cell? hcell' c.globals.length
  have hlt := (List.getElem?_eq_some_iff.mp
    (Activation.fixed_getElem?_of_cell? hcell' c.globals.length)).1
  have hfp : m.fp + offset = ((c.globals.length +
      (c.activation.withTemps ts).place c.globals.length cell : Nat) : Int) := by
    rw [h.fp, Config.base, ← Activation.base_withTemps _ c.activation ts, haddress]
    simp
  have hset : ((c.advance ts).words).set (c.globals.length +
      (c.activation.withTemps ts).place c.globals.length cell) v =
      c.globals ++ ((c.activation.withTemps ts).write cell v).words c.globals.length := by
    simp only [Config.words, Config.advance, Activation.words]
    rw [List.set_append_right _ _ (Nat.le_add_right _ _), Nat.add_sub_cancel_left,
      List.set_append_left _ _ hlt, Activation.fixed_set_of_cell? hcell',
      Activation.temps_write]
  have hlength : c.globals.length + (c.activation.withTemps ts).place c.globals.length cell <
      (c.advance ts).words.length := by
    simp only [Config.words, Config.advance, Activation.words, List.length_append]
    omega
  rw [hfp, store_of_holds hholds hlength]
  refine Arrives.of_ok rfl ⟨?_, ?_, ?_, h.output⟩ ⟨rfl, rfl, rfl⟩
  · change m.pc + 1 = _
    rw [h.pc]
    rfl
  · change m.fp = Activation.base _ _
    rw [h.fp, Activation.base_write, Activation.base_withTemps]
    rfl
  · have hwritten := hholds.take.set (c.globals.length +
      (c.activation.withTemps ts).place c.globals.length cell) v
    rw [hset] at hwritten
    exact hwritten.congr rfl rfl rfl

theorem Shows.arrives_storeGlobal (h : m.Shows c) {slot : Int}
    (hslot : 0 ≤ slot ∧ slot < c.globals.length) (hts : c.activation.temps = v :: ts) :
    m.Arrives { c.advance ts with globals := c.globals.set slot.toNat v } (store i slot m) := by
  have hholds := h.holds_cons hts
  have hlt : slot.toNat < c.globals.length := by omega
  have hlength : slot.toNat < (c.advance ts).words.length := by
    simp only [Config.words, Config.advance, List.length_append]
    omega
  have hcast : slot = (slot.toNat : Int) := by omega
  have hstore := store_of_holds (i := i) hholds hlength
  rw [← hcast] at hstore
  rw [hstore]
  refine Arrives.of_ok rfl ⟨?_, ?_, ?_, h.output⟩ ⟨rfl, rfl, rfl⟩
  · change m.pc + 1 = _
    rw [h.pc]
    rfl
  · change m.fp = Activation.base _ _
    simp only [List.length_set, Config.advance, Activation.base_withTemps]
    exact h.fp
  · have hwritten := hholds.take.set slot.toNat v
    have hset : ((c.advance ts).words).set slot.toNat v =
        Config.words { c.advance ts with globals := c.globals.set slot.toNat v } := by
      simp only [Config.words, Config.advance, List.length_set]
      rw [List.set_append_left _ _ hlt]
    rw [hset] at hwritten
    exact hwritten.congr rfl rfl rfl

theorem Shows.arrives_compute (h : m.Shows c) {op : Operator} {a b r : Int}
    (hts : c.activation.temps = b :: a :: ts) (hr : op.compute? a b = some r) :
    m.Arrives (c.advance (r :: ts)) (compute i op m) := by
  have hb := h.holds_cons hts
  rw [Config.words_advance_cons] at hb
  have ha := hb.take
  have hwords : c.words = (c.advance ts).words ++ [a, b] := by
    rw [Config.words_of_temps_cons hts, Config.words_advance_cons, List.append_assoc]
    rfl
  rw [compute, bind_of_ok (pop_of_holds hb), bind_of_ok (pop_of_holds ha)]
  simp only [hr]
  exact h.arrives_replace hwords r

theorem Shows.compute_eq_error (h : m.Shows c) {op : Operator} {a b : Int}
    (hts : c.activation.temps = b :: a :: ts) (hr : op.compute? a b = none) :
    ∃ f m', compute i op m = .error (.fault f) m' ∧ f.cause.category = .divisionByZero ∧
      m'.output = m.output := by
  have hb := h.holds_cons hts
  rw [Config.words_advance_cons] at hb
  have ha := hb.take
  rw [compute, bind_of_ok (pop_of_holds hb), bind_of_ok (pop_of_holds ha)]
  simp only [hr]
  exact ⟨_, _, bind_of_error rfl, rfl, rfl⟩

theorem Shows.arrives_negate (h : m.Shows c) (hts : c.activation.temps = v :: ts) :
    m.Arrives (c.advance (Word.wrap (-v) :: ts))
      ((pop i >>= fun v => push i (Word.wrap (-v)) >>= fun _ => advance) m) := by
  rw [bind_of_ok (pop_of_holds (h.holds_cons hts))]
  exact h.arrives_replace (Config.words_of_temps_cons hts) _

theorem Shows.arrives_print (h : m.Shows c) (hts : c.activation.temps = v :: ts) :
    m.Arrives { c.advance (v :: ts) with output := c.output ++ [Text.decimal v] }
      ((top i >>= fun v => writeLine (Text.decimal v) >>= fun _ => advance) m) := by
  have htop := top_of_holds (i := i) (h.holds_cons hts)
  have hline : writeLine (Text.decimal v) m =
      .ok () { m with output := m.output.push (Text.decimal v) } := rfl
  have hholds := h.holds
  rw [← Config.words_advance_temps, hts] at hholds
  refine Arrives.of_ok ((bind_of_ok htop).trans (bind_of_ok hline)) ⟨?_, ?_, ?_, ?_⟩ ⟨rfl, rfl, rfl⟩
  · change m.pc + 1 = _
    rw [h.pc]
    rfl
  · change m.fp = (c.advance (v :: ts)).base
    rw [h.fp, Config.base_advance]
  · exact hholds.congr rfl rfl rfl
  · simp [h.output]

/-- A jump of the configuration is one of the machine, also after a word was popped. -/
theorem Shows.arrives_jump {target : Int} {m₁ : Machine}
    (h : m₁.Shows { c.advance ts with pc := c.pc })
    (hjump : Config.jump m₁.program.size target c ts = .next c') :
    m₁.Arrives c' (jump i target m₁) := by
  unfold Config.jump at hjump
  split at hjump
  · rename_i htarget
    obtain rfl := Config.Outcome.next.inj hjump
    refine Arrives.of_ok (jump_of_target htarget) ⟨?_, h.fp, ?_, h.output⟩ ⟨rfl, rfl, rfl⟩
    · change target = ((target.toNat : Nat) : Int)
      omega
    · exact h.holds.congr rfl rfl rfl
  · cases hjump

theorem Shows.arrives_pop (h : m.Shows c) (hts : c.activation.temps = v :: ts) :
    m.Arrives (c.advance ts) ((pop i >>= fun _ => advance) m) := by
  have hnext := h.popped hts (c.pc + 1)
  refine Arrives.of_ok (bind_of_ok (pop_of_holds (h.holds_cons hts))) ?_ ⟨rfl, rfl, rfl⟩
  rw [h.pc]
  exact hnext

theorem Shows.arrives_jumpIfZero {target : Int} (h : m.Shows c)
    (hts : c.activation.temps = v :: ts)
    (hperform : (if v = 0 then Config.jump m.program.size target c ts else .next (c.advance ts)) =
      .next c') :
    m.Arrives c' ((pop i >>= fun v => if v = 0 then jump i target else advance) m) := by
  have hpopped := h.popped hts c.pc
  rw [← h.pc] at hpopped
  have hkeeps : m.Keeps { m with sp := (c.advance ts).words.length } := ⟨rfl, rfl, rfl⟩
  by_cases hzero : v = 0
  · rw [if_pos hzero] at hperform
    refine Arrives.after ?_ hkeeps rfl
    rw [bind_of_ok (pop_of_holds (h.holds_cons hts)), if_pos hzero]
    exact hpopped.arrives_jump hperform
  · rw [if_neg hzero] at hperform
    obtain rfl := Config.Outcome.next.inj hperform
    have hpop := h.arrives_pop (i := i) hts
    rw [bind_of_ok (pop_of_holds (h.holds_cons hts))] at hpop ⊢
    rwa [if_neg hzero]

/-- A call saves the next address and the base of the caller. -/
theorem call_of_holds {target : Int} (h : m.Holds ws)
    (htarget : 0 ≤ target ∧ target < m.program.size)
    (hroom : (ws.length : Int) + 2 ≤ m.options.stackSize) :
    ∃ m', call i target m = .ok () m' ∧ m'.Holds (ws ++ [m.pc + 1] ++ [m.fp]) ∧
      m'.fp = (ws.length : Int) + 2 ∧ m'.pc = target ∧ m.Keeps m' ∧ m'.output = m.output := by
  have hfirst : (ws.length : Int) < m.options.stackSize := by omega
  have hpush := h.push (m.pc + 1) hfirst
  have hsecond : ((ws ++ [m.pc + 1]).length : Int) < m.options.stackSize := by
    simp only [List.length_append, List.length_singleton]
    omega
  have hpush' := hpush.push m.fp hsecond
  have hfp : (((ws ++ [m.pc + 1] ++ [m.fp]).length : Nat) : Int) = (ws.length : Int) + 2 := by
    simp only [List.length_append, List.length_singleton]
    omega
  rw [call_of_target htarget, bind_of_ok (push_of_holds h hfirst),
    bind_of_ok (push_of_holds hpush hsecond)]
  exact ⟨_, rfl, ⟨hpush'.sp, hpush'.size, hpush'.fits, hpush'.words⟩, hpush'.sp.trans hfp, rfl,
    ⟨rfl, rfl, rfl⟩, rfl⟩

theorem call_overflows {target : Int} (h : m.Holds ws)
    (htarget : 0 ≤ target ∧ target < m.program.size)
    (hfull : m.options.stackSize < (ws.length : Int) + 2) :
    ∃ m', call i target m =
      .error (.fault ⟨.overflow m.options.stackSize, m.pc, some i⟩) m' ∧ m'.output = m.output := by
  rw [call_of_target htarget]
  by_cases hfirst : (ws.length : Int) < m.options.stackSize
  · have hpush := h.push (m.pc + 1) hfirst
    have hsecond : m.options.stackSize ≤ ((ws ++ [m.pc + 1]).length : Int) := by
      simp only [List.length_append, List.length_singleton]
      omega
    rw [bind_of_ok (push_of_holds h hfirst)]
    exact ⟨_, bind_of_error (push_overflows hpush hsecond), rfl⟩
  · exact ⟨_, bind_of_error (push_overflows h (Int.not_lt.mp hfirst)), rfl⟩

theorem Shows.arrives_call {target : Int} {arity : Nat} (h : m.Shows c)
    (hcall : c.enterCall m.program.size arity target = .next c') :
    m.Arrives c' (call i target m) := by
  unfold Config.enterCall at hcall
  split at hcall
  · rename_i hguard
    obtain ⟨htarget, hcount⟩ := hguard
    obtain rfl := Config.Outcome.next.inj hcall
    have hwords := Config.words_called arity target c
    have hheight := congrArg List.length hwords
    rw [Config.length_words] at hheight
    simp only [List.length_append, List.length_singleton] at hheight
    have hpc : m.pc + 1 = ((c.pc + 1 : Nat) : Int) := by
      rw [h.pc]
      rfl
    by_cases hroom : (c.words.length : Int) + 2 ≤ m.options.stackSize
    · obtain ⟨m', hm', hholds, hfp, hpc', hkeeps, houtput⟩ :=
        call_of_holds (i := i) h.holds htarget hroom
      rw [hpc, h.fp, ← hwords] at hholds
      refine Arrives.of_ok hm' ⟨?_, ?_, hholds, ?_⟩ hkeeps
      · rw [hpc']
        change target = ((target.toNat : Nat) : Int)
        omega
      · rw [hfp, Config.base_called]
        omega
      · rw [houtput]
        exact h.output
    · have hfull : ¬((c.called arity target).height : Int) ≤ m.options.stackSize := by omega
      obtain ⟨m', hm', houtput⟩ := call_overflows (i := i) h.holds htarget (Int.not_le.mp hroom)
      rw [Arrives, if_neg hfull]
      exact ⟨_, m', hm', rfl, houtput⟩
  · cases hcall

/-- A return first takes the value, the base of the caller and the address to return to. -/
theorem giveBack_of_frame {below rest : List Int} {address fp arguments : Int}
    (h : m.Holds (below ++ [address] ++ [fp] ++ rest ++ [v]))
    (hfp : m.fp = ((below ++ [address] ++ [fp]).length : Int)) :
    giveBack i arguments m = (do
      if ¬(0 ≤ arguments ∧ arguments ≤ below.length) then
        fault i (.cannotDrop arguments below.length)
      setSp (below.length - arguments)
      push i v
      goto address : Exec Unit) { m with sp := below.length, fp := fp } := by
  have hsaved : Holds { m with sp := m.fp } (below ++ [address] ++ [fp]) := by
    refine Holds.congr h.take.take ?_ rfl rfl
    exact hfp
  have haddress : Holds { m with sp := (below ++ [address]).length, fp := fp }
      (below ++ [address]) := hsaved.take.congr rfl rfl rfl
  have hbase (sp : Int) : (modify fun m => { m with sp := m.fp } : Exec Unit) { m with sp } =
      .ok () { m with sp := m.fp } := rfl
  have hrestore (sp : Int) : (modify fun m => { m with fp } : Exec Unit) { m with sp } =
      .ok () { m with sp, fp } := rfl
  rw [giveBack, bind_of_ok (pop_of_holds h), bind_of_ok (hbase _),
    bind_of_ok (pop_of_holds hsaved), bind_of_ok (hrestore _), bind_of_ok (pop_of_holds haddress)]
  rfl

/-- A return drops what is above the caller's words and the arguments, and pushes the value. -/
theorem giveBack_of_holds {below taken rest : List Int} {address fp arguments : Int}
    (h : m.Holds (below ++ taken ++ [address] ++ [fp] ++ rest ++ [v]))
    (hfp : m.fp = ((below ++ taken ++ [address] ++ [fp]).length : Int))
    (hcount : arguments = taken.length) :
    giveBack i arguments m = .ok ()
      { m with
        stack := m.stack.setIfInBounds below.length v
        sp := (below.length : Int) + 1
        fp := fp
        pc := address } := by
  have hbelow : Holds { m with sp := below.length, fp := fp } below := by
    have htaken := h.take.take.take.take.take
    exact htaken.congr rfl rfl rfl
  have hroom : (below.length : Int) < m.options.stackSize := by
    have hfits := h.fits
    simp only [List.length_append, List.length_singleton] at hfits
    omega
  have hcheck : ¬¬(0 ≤ (taken.length : Int) ∧
      (taken.length : Int) ≤ (below.length : Int) + taken.length) := by
    omega
  have hdrop : (below.length : Int) + taken.length - taken.length = below.length := by omega
  have hlower (sp : Int) : setSp below.length { m with sp, fp } =
      .ok () { m with sp := below.length, fp } := rfl
  have hpush := push_of_holds (i := i) (v := v) hbelow hroom
  rw [giveBack_of_frame h hfp]
  simp only [hcount, List.length_append, Int.natCast_add]
  rw [if_neg hcheck, hdrop]
  exact (bind_of_ok (hlower _)).trans (bind_of_ok hpush)

/-- A return with fewer words than arguments faults. -/
theorem giveBack_of_few {below rest : List Int} {address fp arguments : Int}
    (h : m.Holds (below ++ [address] ++ [fp] ++ rest ++ [v]))
    (hfp : m.fp = ((below ++ [address] ++ [fp]).length : Int))
    (hcount : (below.length : Int) < arguments) :
    ∃ m', giveBack i arguments m =
      .error (.fault ⟨.cannotDrop arguments below.length, m.pc, some i⟩) m' := by
  have hcheck : ¬(0 ≤ arguments ∧ arguments ≤ (below.length : Int)) := by omega
  rw [giveBack_of_frame h hfp, if_pos hcheck]
  exact ⟨_, bind_of_error rfl⟩

theorem Shows.arrives_giveBack {arguments : Int} (h : m.Shows c)
    (hts : c.activation.temps = v :: ts) (hreturn : c.leaveCall arguments v = .next c') :
    m.Arrives c' (giveBack i arguments m) := by
  unfold Config.leaveCall at hreturn
  split at hreturn
  · cases hreturn
  · rename_i caller taken returnTo locals temps hactivation
    split at hreturn
    · rename_i hcount
      obtain rfl := Config.Outcome.next.inj hreturn
      obtain ⟨below, hbelow⟩ : ∃ ws, ws = c.globals ++ caller.words c.globals.length := ⟨_, rfl⟩
      have hlength : below.length = caller.height c.globals.length := by
        rw [hbelow, List.length_append, Activation.length_words]
      have hframe : (c.advance ts).words = below ++ taken ++ [(returnTo : Int)] ++
          [(caller.base c.globals.length : Int)] ++ (locals ++ ts.reverse) := by
        simp [Config.words, Config.advance, hactivation, Activation.withTemps, Activation.words,
          Activation.fixed, hbelow]
      have hfp : m.fp = ((below ++ taken ++ [(returnTo : Int)] ++
          [(caller.base c.globals.length : Int)]).length : Int) := by
        rw [h.fp, Config.base, hactivation]
        simp only [Activation.base, List.length_append, List.length_singleton, hlength]
      have hholds := h.holds_cons hts
      rw [hframe] at hholds
      have hroom : (below.length : Int) < m.options.stackSize := by
        have hfits := hholds.fits
        simp only [List.length_append, List.length_singleton] at hfits
        omega
      have hwords : Config.words
          { c with pc := returnTo, activation := caller.withTemps (v :: caller.temps) } =
          below ++ [v] := by
        simp [Config.words, hbelow, Activation.words]
      refine Arrives.of_ok (giveBack_of_holds hholds hfp hcount) ⟨rfl, ?_, ?_, h.output⟩
        ⟨rfl, rfl, rfl⟩
      · simp [Config.base]
      · rw [hwords]
        rw [List.append_assoc, List.append_assoc, List.append_assoc, List.append_assoc] at hholds
        exact (hholds.take.push v hroom).congr rfl rfl rfl
    · cases hreturn

/-- Zeros are stored one by one. -/
theorem exists_clear (m : Machine) (index count : Nat) (h : index + count ≤ m.stack.size) :
    ∃ stack : Array Int, clear index count m = .ok () { m with stack } ∧
      stack.size = m.stack.size ∧
      ∀ k : Nat, stack[k]? = if index ≤ k ∧ k < index + count then some 0 else m.stack[k]? := by
  induction count generalizing index m with
  | zero =>
    refine ⟨m.stack, rfl, rfl, fun k => ?_⟩
    rw [if_neg (by omega)]
  | succ count ih =>
    have hwrite : writeWord index 0 m =
        .ok () { m with stack := m.stack.setIfInBounds index 0 } := by
      rw [writeWord, slot?_ofNat (by omega)]
    obtain ⟨stack, hclear, hsize, hwords⟩ :=
      ih { m with stack := m.stack.setIfInBounds index 0 } (index + 1)
        (by rw [Array.size_setIfInBounds]; omega)
    refine ⟨stack, ?_, hsize.trans Array.size_setIfInBounds, fun k => ?_⟩
    · rw [clear, bind_of_ok hwrite]
      exact hclear
    · rw [hwords k]
      by_cases hk : k = index
      · subst hk
        rw [if_neg (by omega), if_pos (by omega)]
        exact Array.getElem?_setIfInBounds_self_of_lt (by omega)
      · rw [Array.getElem?_setIfInBounds_ne (Ne.symm hk)]
        by_cases hin : index + 1 ≤ k ∧ k < index + 1 + count
        · rw [if_pos hin, if_pos (by omega)]
        · rw [if_neg hin, if_neg (by omega)]

/-- Clearing writes zeros above words and leaves the words alone. -/
theorem clear_eq_ok (n : Nat) (m : Machine) (ws : List Int)
    (hwords : ∀ k < ws.length, m.stack[k]? = ws[k]?) (hsize : ws.length + n ≤ m.stack.size) :
    ∃ stack, clear ws.length n m = .ok () { m with stack } ∧ stack.size = m.stack.size ∧
      ∀ k < ws.length + n, stack[k]? = (ws ++ List.replicate n 0)[k]? := by
  obtain ⟨stack, hclear, hstack, hzeros⟩ := exists_clear m ws.length n hsize
  refine ⟨stack, hclear, hstack, fun k hk => ?_⟩
  rw [hzeros k]
  by_cases hlow : k < ws.length
  · rw [if_neg (by omega), hwords k hlow, List.getElem?_append_left hlow]
  · rw [if_pos (by omega), List.getElem?_append_right (by omega),
      List.getElem?_replicate_of_lt (by omega)]

/-- Entering a function reserves its variables and sets them to zero. -/
theorem enter_of_holds (n : Nat) (h : m.Holds ws)
    (hroom : (ws.length : Int) + n ≤ m.options.stackSize) :
    ∃ m', enter i n m = .ok () m' ∧ m'.Holds (ws ++ List.replicate n 0) ∧ m'.fp = m.fp ∧
      m'.pc = m.pc + 1 ∧ m.Keeps m' ∧ m'.output = m.output := by
  have hsp := h.sp
  have hsize := h.size
  obtain ⟨stack, hclear, hstack, hzeros⟩ := clear_eq_ok n m ws h.words (by omega)
  have hover : ¬m.options.stackSize < (ws.length : Int) + n := by omega
  have hunder : ¬(ws.length : Int) + n < 0 := by omega
  refine ⟨{ m with stack, sp := (ws.length : Int) + n, pc := m.pc + 1 }, ?_, ⟨by simp, ?_, ?_, ?_⟩,
    rfl, rfl, ⟨rfl, rfl, rfl⟩, rfl⟩
  · rw [enter, get_bind]
    simp [bind, EStateM.bind, hsp, hover, hunder, hclear, setSp, advance]
  · exact hstack.trans hsize
  · simpa using hroom
  · simpa using hzeros

theorem enter_overflows (n : Nat) (h : m.Holds ws)
    (hfull : m.options.stackSize < (ws.length : Int) + n) :
    enter i n m = .error (.fault ⟨.localsOverflow n m.options.stackSize, m.pc, some i⟩)
      { m with running := false } := by
  rw [enter, get_bind]
  simp [bind, EStateM.bind, h.sp, hfull, fault]

theorem Shows.arrives_enter {locals : Int} (h : m.Shows c)
    (henter : c.reserve locals = .next c') : m.Arrives c' (enter i locals m) := by
  unfold Config.reserve at henter
  split at henter
  · rename_i caller arguments returnTo hactivation
    split at henter
    · rename_i hlocals
      obtain rfl := Config.Outcome.next.inj henter
      obtain ⟨n, rfl⟩ := Int.eq_ofNat_of_zero_le hlocals
      have hwords : Config.words
          { c with
            pc := c.pc + 1
            activation := .call caller arguments returnTo (List.replicate n 0) [] } =
          c.words ++ List.replicate n 0 := by
        simp [Config.words, hactivation, Activation.words, Activation.fixed]
      have hheight := congrArg List.length hwords
      rw [Config.length_words, List.length_append, List.length_replicate] at hheight
      simp only [Int.toNat_natCast] at hwords hheight ⊢
      by_cases hroom : (c.words.length : Int) + n ≤ m.options.stackSize
      · obtain ⟨m', hm', hholds, hfp, hpc, hkeeps, houtput⟩ :=
          enter_of_holds (i := i) n h.holds hroom
        refine Arrives.of_ok hm' ⟨?_, ?_, ?_, ?_⟩ hkeeps
        · rw [hpc, h.pc]
          rfl
        · rw [hfp, h.fp, Config.base, Config.base, hactivation]
          rfl
        · rw [hwords]
          exact hholds
        · rw [houtput]
          exact h.output
      · have hfull : ¬((c.words.length + n : Nat) : Int) ≤ m.options.stackSize := by omega
        rw [Arrives, hheight, if_neg hfull]
        exact ⟨_, _, enter_overflows n h.holds (Int.not_le.mp hroom), rfl, rfl⟩
    · cases henter
  · cases henter

/-! ## Steps -/

theorem Shows.addStep (h : m.Shows c) : Shows { m with steps := m.steps + 1 } c :=
  ⟨h.pc, h.fp, h.holds.congr rfl rfl rfl, h.output⟩

theorem current?_of_pc {address : Nat} (h : m.pc = address) :
    m.current? = m.program.code[address]? := by
  rw [current?, h, if_pos (Int.natCast_nonneg _), Int.toNat_natCast]

/-- A step executes the instruction that the machine is at. -/
theorem step_eq_execute (hcurrent : m.current? = some i)
    (hknown : ∀ x, i.operation ≠ .foreign x) :
    step m = execute i { m with steps := m.steps + 1 } := by
  rw [step, hcurrent]
  split
  · rename_i hnone
    cases hnone
  · rename_i j hj
    obtain rfl := Option.some.inj hj
    split
    · rename_i x hx
      exact absurd hx (hknown x)
    · rfl

/-- A configuration that is not stuck is at an instruction that the machine executes. -/
theorem Shows.exists_execute (arity : Int → Nat) (h : m.Shows c)
    (hstep : c.step arity m.program ≠ .stuck) :
    ∃ i, c.step arity m.program = c.perform arity m.program.size i.operation ∧
      step m = execute i { m with steps := m.steps + 1 } := by
  unfold Config.step at hstep ⊢
  cases hcode : m.program.code[c.pc]? with
  | none => simp [hcode] at hstep
  | some i =>
    simp only [hcode] at hstep
    refine ⟨i, rfl, step_eq_execute ((current?_of_pc h.pc).trans hcode) fun x hx => ?_⟩
    rw [hx] at hstep
    exact hstep rfl

/-- What an operation does to the configuration, the machine does to itself. -/
theorem Shows.execute_arrives {arity : Int → Nat} (h : m.Shows c)
    (hperform : c.perform arity m.program.size i.operation = .next c') :
    m.Arrives c' (execute i m) := by
  unfold execute
  generalize i.operation = op at hperform
  unfold Config.perform at hperform
  split at hperform
  · obtain rfl := Config.Outcome.next.inj hperform
    exact h.arrives_push _
  · split at hperform
    · rename_i hcell
      obtain rfl := Config.Outcome.next.inj hperform
      exact h.arrives_load hcell
    · cases hperform
  · rename_i hts
    split at hperform
    · rename_i hcell
      obtain rfl := Config.Outcome.next.inj hperform
      exact h.arrives_store hcell hts
    · cases hperform
  · split at hperform
    · rename_i hslot
      obtain rfl := Config.Outcome.next.inj hperform
      exact h.arrives_loadGlobal hslot
    · cases hperform
  · rename_i hts
    split at hperform
    · rename_i hslot
      obtain rfl := Config.Outcome.next.inj hperform
      exact h.arrives_storeGlobal hslot hts
    · cases hperform
  · rename_i hts
    obtain rfl := Config.Outcome.next.inj hperform
    exact h.arrives_pop hts
  · rename_i hts
    split at hperform
    · rename_i hresult
      obtain rfl := Config.Outcome.next.inj hperform
      exact h.arrives_compute hts hresult
    · cases hperform
  · rename_i hts
    obtain rfl := Config.Outcome.next.inj hperform
    exact h.arrives_negate hts
  · -- A jump keeps the words, those that are computed included.
    refine Shows.arrives_jump ⟨h.pc, ?_, ?_, h.output⟩ hperform
    · exact h.fp.trans (congrArg Nat.cast (Config.base_advance c _).symm)
    · have hholds := h.holds
      rw [← Config.words_advance_temps] at hholds
      exact hholds
  · rename_i hts
    exact h.arrives_jumpIfZero hts hperform
  · exact h.arrives_call hperform
  · rename_i hts
    exact h.arrives_giveBack hts hperform
  · exact h.arrives_enter hperform
  · rename_i hts
    obtain rfl := Config.Outcome.next.inj hperform
    exact h.arrives_print hts
  · cases hperform
  · cases hperform

/-- A step of the configuration is a step of the machine. -/
theorem Shows.step_arrives {arity : Int → Nat} (h : m.Shows c)
    (hstep : c.step arity m.program = .next c') : m.Arrives c' (step m) := by
  obtain ⟨i, hperform, hexecute⟩ := h.exists_execute arity (by rw [hstep]; simp)
  rw [hexecute]
  rw [hperform] at hstep
  exact (h.addStep.execute_arrives hstep).after ⟨rfl, rfl, rfl⟩ rfl

/-- Where the configuration divides by zero, the machine faults so. -/
theorem Shows.step_dividesByZero {arity : Int → Nat} (h : m.Shows c)
    (hstep : c.step arity m.program = .dividesByZero) :
    ∃ f m', step m = .error (.fault f) m' ∧ f.cause.category = .divisionByZero ∧
      m'.output = m.output := by
  obtain ⟨i, hperform, hexecute⟩ := h.exists_execute arity (by rw [hstep]; simp)
  rw [hexecute]
  rw [hperform] at hstep
  unfold execute
  generalize i.operation = op at hstep
  unfold Config.perform Config.jump Config.enterCall Config.leaveCall Config.reserve at hstep
  split at hstep
  case h_7 hts =>
    split at hstep
    · cases hstep
    · rename_i hresult
      exact h.addStep.compute_eq_error hts hresult
  all_goals (repeat' split at hstep) <;> cases hstep

/-- Where the configuration halts, the machine stops running and stays where it is. -/
theorem Shows.step_halted {arity : Int → Nat} (h : m.Shows c)
    (hstep : c.step arity m.program = .halted) :
    step m = .ok () { m with running := false, steps := m.steps + 1 } := by
  obtain ⟨i, hperform, hexecute⟩ := h.exists_execute arity (by rw [hstep]; simp)
  rw [hexecute]
  rw [hperform] at hstep
  unfold execute
  generalize i.operation = op at hstep
  unfold Config.perform Config.jump Config.enterCall Config.leaveCall Config.reserve at hstep
  split at hstep
  case h_15 => rfl
  all_goals (repeat' split at hstep) <;> cases hstep

end StackLang.Machine
