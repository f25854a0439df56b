import StackLang.Proofs.Accepted
import StackLang.Proofs.Callees
import StackLang.Proofs.Jumps

/-!
# Targets are resolved

The code of any script, whether or not anything is found in it, is a row of regions: the code
outside functions up to the end of the run, and then the code of each function from its entry on.
Jumps stay in their region and conditional ones go forward. The table of functions has exactly the
addresses at which functions are entered, and every call goes where the table has its callee.
-/

namespace StackLang

namespace Program

/-- The region of an address: the number of functions that are entered up to it. -/
def region (p : Program) (address : Nat) : Nat := p.functions.countP (·.2 ≤ address)

/-- The targets of the calls in a region, in the order of their addresses. -/
def callsIn (p : Program) (region : Nat) : List Int :=
  (p.code.toList.zipIdx.filter (p.region ·.2 = region)).filterMap (·.1.operation.callTarget?)

/-- The entry of a callee, and zero for one that is not in the table of functions. -/
def entryOf (p : Program) (callee : Option String) : Int :=
  ((callee.bind fun name => p.functions.lookup name).map Int.ofNat).getD 0

/-- Where a program starts: at the entry of its first function, and at -1 if there is none. -/
def startTarget (p : Program) : Int := ((p.functions.lookup entryName).map Int.ofNat).getD (-1)

end Program

/-- The names of the functions that have a name and a body, each once. -/
def Tree.definedNames (t : Tree) : List String :=
  ((t.childrenOf .function).filterMap fun f =>
    (f.first? .block).bind fun _ => f.get? "name").eraseDups

/-! ## Rows of pieces -/

section Rows

variable {α : Type} {pieces before after : List (List α)} {piece : List α} {x : α} {a : Nat}

/-- What stands in a row of pieces stands in one of them. -/
theorem exists_piece_of_getElem? (h : pieces.flatten[a]? = some x) :
    ∃ before piece after k, pieces = before ++ piece :: after ∧ a = before.flatten.length + k ∧
      piece[k]? = some x := by
  induction pieces generalizing a with
  | nil => simp at h
  | cons head pieces ih =>
    rw [List.flatten_cons] at h
    by_cases ha : a < head.length
    · rw [List.getElem?_append_left ha] at h
      exact ⟨[], head, pieces, a, rfl, by simp, h⟩
    · rw [List.getElem?_append_right (by omega)] at h
      obtain ⟨before, piece, after, k, rfl, hk, hx⟩ := ih h
      refine ⟨head :: before, piece, after, k, rfl, ?_, hx⟩
      rw [List.flatten_cons, List.length_append]
      omega

theorem getElem?_flatten_piece {k : Nat} (hk : k < piece.length) :
    (before ++ piece :: after).flatten[before.flatten.length + k]? = piece[k]? := by
  rw [List.flatten_append, List.flatten_cons, List.getElem?_append_right (Nat.le_add_right _ _),
    Nat.add_sub_cancel_left, List.getElem?_append_left hk]

/-- What is taken from the places of the middle one of three lists is what is taken from it. -/
theorem filterMap_zipIdx_middle {β : Type} {xs ys zs : List α} {q : Nat → Bool} {f : α → Option β}
    (hq : ∀ a < xs.length + (ys.length + zs.length),
      q a = true ↔ xs.length ≤ a ∧ a < xs.length + ys.length) :
    ((xs ++ (ys ++ zs)).zipIdx.filter (q ·.2)).filterMap (f ·.1) = ys.filterMap f := by
  have hxs : (xs.zipIdx 0).filter (q ·.2) = [] := by
    refine List.filter_eq_nil_iff.mpr fun x hx hqx => ?_
    have hlt := List.snd_lt_of_mem_zipIdx hx
    have hbounds := (hq x.2 (by omega)).mp hqx
    omega
  have hys : (ys.zipIdx (0 + xs.length)).filter (q ·.2) = ys.zipIdx (0 + xs.length) := by
    refine List.filter_eq_self.mpr fun x hx => ?_
    have hlt := List.snd_lt_of_mem_zipIdx hx
    have hle := List.le_snd_of_mem_zipIdx hx
    exact (hq x.2 (by omega)).mpr (by omega)
  have hzs : (zs.zipIdx (0 + xs.length + ys.length)).filter (q ·.2) = [] := by
    refine List.filter_eq_nil_iff.mpr fun x hx hqx => ?_
    have hlt := List.snd_lt_of_mem_zipIdx hx
    have hle := List.le_snd_of_mem_zipIdx hx
    have hbounds := (hq x.2 (by omega)).mp hqx
    omega
  rw [List.zipIdx_append, List.zipIdx_append, List.filter_append, List.filter_append, hxs, hys, hzs,
    List.nil_append, List.append_nil]
  conv_rhs => rw [← List.zipIdx_map_fst (0 + xs.length) ys, List.filterMap_map]
  rfl

end Rows

/-- In settled code only drafted jumps become jumps. -/
theorem Draft.Action.exists_distance {action : Draft.Action} (hsettled : action.IsSettled)
    {entries : List (String × Nat)} {address : Nat} {target : Int}
    (h : action.operation entries address = .jump target ∨
      action.operation entries address = .jumpIfZero target) :
    ∃ distance, target = address + distance ∧
      (action = .jump distance ∧ action.operation entries address ≠ .jumpIfZero target ∨
        action = .jumpIfZero distance) := by
  cases action with
  | fixed operation =>
    have heq : Draft.Action.operation entries address (.fixed operation) = operation := rfl
    rw [heq] at h
    rcases h with rfl | rfl <;> exact absurd hsettled id
  | jump distance =>
    refine ⟨distance, ?_, .inl ⟨rfl, by rintro ⟨⟩⟩⟩
    rcases h with h | h
    · exact (Operation.jump.inj h).symm
    · cases h
  | jumpIfZero distance =>
    refine ⟨distance, ?_, .inr rfl⟩
    rcases h with h | h
    · cases h
    · exact (Operation.jumpIfZero.inj h).symm
  | call callee missing => rcases h with h | h <;> cases h

/-! ## Entries and definitions -/

namespace Script

variable {σ : Scope} {address a : Nat} {ds : List Definition}

theorem le_of_mem_entriesFrom {e : String × Nat} (h : e ∈ entriesFrom σ address ds) :
    address ≤ e.2 := by
  induction ds generalizing address with
  | nil => cases h
  | cons d ds ih =>
    rcases List.mem_cons.mp h with rfl | h
    · exact Nat.le_refl _
    · exact Nat.le_of_add_right_le (ih h)

theorem map_fst_entriesFrom :
    (entriesFrom σ address ds).map Prod.fst = ds.map Definition.name := by
  induction ds generalizing address with
  | nil => rfl
  | cons d ds ih => rw [entriesFrom, List.map_cons, ih, List.map_cons]

theorem pairwise_entriesFrom :
    ((entriesFrom σ address ds).map Prod.snd).Pairwise (· < ·) := by
  induction ds generalizing address with
  | nil => exact List.Pairwise.nil
  | cons d ds ih =>
    rw [entriesFrom, List.map_cons, List.pairwise_cons]
    refine ⟨fun entry hentry => ?_, ih⟩
    obtain ⟨e, he, rfl⟩ := List.mem_map.mp hentry
    have hlength : 0 < (d.code σ).length := by simp [Definition.code]
    have hle := le_of_mem_entriesFrom he
    omega

/-- The entries up to an address beyond the first definitions are theirs and those behind them. -/
theorem countP_entriesFrom_append {before after : List Definition}
    (h : address + (before.flatMap (Definition.code σ)).length ≤ a) :
    (entriesFrom σ address (before ++ after)).countP (·.2 ≤ a) =
      before.length + (entriesFrom σ (address + (before.flatMap (Definition.code σ)).length)
        after).countP (·.2 ≤ a) := by
  rw [entriesFrom_append, List.countP_append]
  congr 1
  have hlength : (entriesFrom σ address before).length = before.length := by
    rw [← List.length_map Prod.fst, map_fst_entriesFrom, List.length_map]
  rw [← hlength, List.countP_eq_length]
  intro e he
  have hlt := (mem_entriesFrom he).2
  exact decide_eq_true (by omega)

theorem countP_entriesFrom_of_lt (h : a < address) :
    (entriesFrom σ address ds).countP (·.2 ≤ a) = 0 := by
  rw [List.countP_eq_zero]
  intro e he
  have hle := le_of_mem_entriesFrom he
  simp only [decide_eq_true_eq]
  omega

end Script

/-- The definition of a function that gets code. -/
def Fate.definition? : Fate → Option Definition
  | .defined d => some d
  | .incomplete _ | .repeated _ _ => none

namespace Script

theorem definitions_eq_filterMap (s : Script) :
    s.definitions = s.fates.filterMap Fate.definition? :=
  List.filterMap_congr fun fate _ => by cases fate <;> rfl

/-- The name of a function that has a body. -/
def definedName? (f : Function) : Option String := f.body.bind fun _ => f.name

/-- The functions that get code are the first ones of their names among those with a body. -/
theorem names_fatesFrom (signatures : List Signature) (seen : List String) (fs : List Function) :
    seen.reverse ++
        ((fatesFrom signatures seen fs).filterMap Fate.definition?).map Definition.name =
      List.eraseDupsBy.loop (· == ·) (fs.filterMap definedName?) seen := by
  induction fs generalizing seen with
  | nil => simp [fatesFrom, List.eraseDupsBy.loop]
  | cons f fs ih =>
    obtain ⟨name, location, returnType, parameters, locals, body⟩ := f
    cases name with
    | none => cases body <;> exact ih seen
    | some name =>
      cases body with
      | none => exact ih seen
      | some body =>
        have hany : seen.any (name == ·) = seen.contains name := by
          rw [List.contains_eq_any_beq]
        have hname : definedName? ⟨some name, location, returnType, parameters, locals, some body⟩ =
            some name := rfl
        rw [List.filterMap_cons_some hname, List.eraseDupsBy.loop, hany]
        cases hseen : seen.contains name with
        | true =>
          simp only [fatesFrom, hseen, if_true]
          exact ih seen
        | false =>
          simp only [fatesFrom, hseen, Bool.false_eq_true, if_false]
          rw [← ih]
          simp [Fate.definition?]

theorem names_definitions (s : Script) :
    s.definitions.map Definition.name = (s.functions.filterMap definedName?).eraseDups := by
  rw [definitions_eq_filterMap, fates, List.eraseDups, List.eraseDupsBy]
  exact names_fatesFrom s.signatures [] s.functions

/-- The names of the functions that get code can be read off the tree. -/
theorem names_definitions_ofTree {t : Tree} {s : Script} (h : ofTree? t = some s) :
    s.definitions.map Definition.name = t.definedNames := by
  rw [ofTree?] at h
  split at h
  · obtain rfl := Option.some.inj h
    rw [names_definitions, List.filterMap_map, Tree.definedNames]
    congr 1
    refine List.filterMap_congr fun f _ => ?_
    simp only [Function.comp_apply, definedName?, Function.ofTree, Option.bind_map]
  · cases h

/-- What is erased from a list has the key of something that is kept. -/
theorem exists_mem_eraseDupsBy_loop {α : Type} (key : α → String) {as bs : List α} {a : α}
    (h : a ∈ as ∨ a ∈ bs) :
    ∃ b ∈ List.eraseDupsBy.loop (fun x y => key x == key y) as bs, key b = key a := by
  induction as generalizing bs a with
  | nil =>
    have hmem : a ∈ bs := by simpa using h
    exact ⟨a, by simpa [List.eraseDupsBy.loop] using hmem, rfl⟩
  | cons c as ih =>
    rw [List.eraseDupsBy.loop]
    cases hany : bs.any (fun y => key c == key y) with
    | false =>
      refine ih ?_
      rw [List.mem_cons] at h ⊢
      tauto
    | true =>
      rcases h with h | h
      · rcases List.mem_cons.mp h with rfl | h
        · obtain ⟨b, hb, hkey⟩ := List.any_eq_true.mp hany
          obtain ⟨b', hb', hkey'⟩ := ih (.inr hb)
          exact ⟨b', hb', hkey'.trans (beq_iff_eq.mp hkey).symm⟩
        · exact ih (.inl h)
      · exact ih (.inr h)

/-- Every function that gets code has a signature. -/
theorem lists_startScope (s : Script) : s.startScope.Lists s.entries := by
  intro name hname
  rw [List.lookup_eq_none_iff]
  intro e he
  refine bne_iff_ne.mpr fun heq => ?_
  have hdefined : e.1 ∈ s.definitions.map Definition.name := (mem_entriesFrom he).1
  rw [names_definitions, List.mem_eraseDups, ← heq] at hdefined
  obtain ⟨f, hf, hfname⟩ := List.mem_filterMap.mp hdefined
  obtain ⟨body, -, hfname⟩ := Option.bind_eq_some_iff.mp hfname
  have hsignature : f.signature? = some ⟨name, f.returnType.bind PrimitiveType.ofSpelling?,
      f.parameters.length⟩ := by
    rw [Function.signature?, hfname, Option.map_some]
  obtain ⟨g, hg, hgname⟩ : ∃ g ∈ s.signatures, g.name = name :=
    exists_mem_eraseDupsBy_loop Signature.name
      (.inl (List.mem_filterMap.mpr ⟨f, hf, hsignature⟩))
  have hnone := List.find?_eq_none.mp hname g hg
  exact hnone (decide_eq_true (congrArg some hgname))

/-! ## Regions of the code -/

/-- The code of a script, region by region. -/
def pieces (s : Script) : List (List Draft) :=
  s.entryCode :: s.definitions.map (Definition.code s.functionScope)

theorem flatten_pieces (s : Script) : s.pieces.flatten = s.code := by
  rw [pieces, List.flatten_cons, ← List.flatMap_def, code]

variable {s : Script} {comments : Bool} {before after : List (List Draft)} {piece : List Draft}
  {a k : Nat} {i : Instruction}

theorem getElem?_program (s : Script) (comments : Bool) (a : Nat) :
    (s.program comments).code[a]? = s.code[a]?.map fun d =>
      { operation := d.action.operation s.entries a, label := d.label,
        comment := if comments then d.comment else none } := by
  have hlinked := Draft.getElem?_link comments s.entries 0 a s.code
  rw [Nat.zero_add] at hlinked
  rw [Script.program, List.getElem?_toArray, hlinked]

/-- Every instruction stands in one of the regions. -/
theorem exists_piece (h : (s.program comments).code[a]? = some i) :
    ∃ before piece after k d, s.pieces = before ++ piece :: after ∧
      a = before.flatten.length + k ∧ piece[k]? = some d ∧
      i.operation = d.action.operation s.entries a := by
  rw [getElem?_program, Option.map_eq_some_iff, ← flatten_pieces] at h
  obtain ⟨d, hd, rfl⟩ := h
  obtain ⟨before, piece, after, k, hsplit, ha, hk⟩ := exists_piece_of_getElem? hd
  exact ⟨before, piece, after, k, d, hsplit, ha, hk, rfl⟩

/-- A region is the code outside functions or the code of a function. -/
theorem pieces_split (hsplit : s.pieces = before ++ piece :: after) :
    before = [] ∧ piece = s.entryCode ∨
      ∃ ds d es, s.definitions = ds ++ d :: es ∧ piece = d.code s.functionScope ∧
        before = s.entryCode :: ds.map (Definition.code s.functionScope) := by
  rw [pieces] at hsplit
  cases before with
  | nil => exact .inl ⟨rfl, (List.cons.inj hsplit).1.symm⟩
  | cons head before =>
    rw [List.cons_append, List.cons.injEq] at hsplit
    obtain ⟨rfl, hsplit⟩ := hsplit
    obtain ⟨ds, es, hdefinitions, rfl, hes⟩ := List.map_eq_append_iff.mp hsplit
    obtain ⟨d, es, rfl, rfl, rfl⟩ := List.map_eq_cons_iff.mp hes
    exact .inr ⟨ds, d, es, hdefinitions, rfl, rfl⟩

theorem pieces_eq {ds es : List Definition} {d : Definition} (h : s.definitions = ds ++ d :: es) :
    s.pieces = (s.entryCode :: ds.map (Definition.code s.functionScope)) ++
      d.code s.functionScope :: es.map (Definition.code s.functionScope) := by
  rw [pieces, h, List.map_append, List.map_cons, List.cons_append]

theorem length_flatten_pieces (s : Script) (ds : List Definition) :
    (s.entryCode :: ds.map (Definition.code s.functionScope)).flatten.length =
      s.entryCode.length + (ds.flatMap (Definition.code s.functionScope)).length := by
  rw [List.flatten_cons, List.length_append, List.flatMap_def]

/-- A region has the number of regions before it. -/
theorem region_program (hsplit : s.pieces = before ++ piece :: after) (hk : k < piece.length) :
    (s.program comments).region (before.flatten.length + k) = before.length := by
  change s.entries.countP _ = _
  rcases pieces_split hsplit with ⟨rfl, rfl⟩ | ⟨ds, d, es, hdefinitions, rfl, rfl⟩
  · exact countP_entriesFrom_of_lt (by simpa using hk)
  · rw [entries, hdefinitions, length_flatten_pieces,
      countP_entriesFrom_append (Nat.le_add_right _ _), entriesFrom, List.countP_cons,
      countP_entriesFrom_of_lt (by omega)]
    simp

/-- An address with the number of a region is in it. -/
theorem exists_of_region_eq (hsplit : s.pieces = before ++ piece :: after)
    (ha : a < (s.program comments).size) (h : (s.program comments).region a = before.length) :
    ∃ k < piece.length, a = before.flatten.length + k := by
  obtain ⟨i, hi⟩ : ∃ i, (s.program comments).code[a]? = some i :=
    ⟨_, Array.getElem?_eq_getElem ha⟩
  obtain ⟨before', piece', after', k, d, hsplit', rfl, hk, -⟩ := exists_piece hi
  have hlt := (List.getElem?_eq_some_iff.mp hk).1
  rw [region_program hsplit' hlt] at h
  obtain ⟨rfl, hrest⟩ := List.append_inj (hsplit.symm.trans hsplit') h.symm
  obtain ⟨rfl, -⟩ := List.cons.inj hrest
  exact ⟨k, hlt, rfl⟩

/-- What is taken from the instructions of a region is what is taken from its linked code. -/
theorem filterMap_region {β : Type} (f : Instruction → Option β)
    (hsplit : s.pieces = before ++ piece :: after) :
    ((s.program comments).code.toList.zipIdx.filter
        ((s.program comments).region ·.2 = before.length)).filterMap (f ·.1) =
      (Draft.link comments s.entries (0 + before.flatten.length) piece).filterMap f := by
  have hcode : (s.program comments).code.toList =
      Draft.link comments s.entries 0 before.flatten ++
        (Draft.link comments s.entries (0 + before.flatten.length) piece ++
          Draft.link comments s.entries (0 + before.flatten.length + piece.length)
            after.flatten) := by
    rw [Script.program, ← flatten_pieces, hsplit, List.flatten_append, List.flatten_cons,
      Draft.link_append, Draft.link_append]
  have hsize : (s.program comments).size =
      before.flatten.length + (piece.length + after.flatten.length) := by
    rw [size_program, ← flatten_pieces, hsplit, List.flatten_append, List.flatten_cons,
      List.length_append, List.length_append]
  rw [hcode]
  refine filterMap_zipIdx_middle (q := ((s.program comments).region · = before.length))
    (f := f) fun a ha => ?_
  simp only [Draft.length_link] at ha ⊢
  constructor
  · intro hregion
    obtain ⟨k, hk, rfl⟩ := exists_of_region_eq hsplit (by omega) (of_decide_eq_true hregion)
    omega
  · rintro ⟨hle, hlt⟩
    obtain ⟨k, rfl⟩ := Nat.exists_eq_add_of_le hle
    exact decide_eq_true (region_program hsplit (by omega))

/-- The calls in a region are those of its code. -/
theorem callsIn_program (hsplit : s.pieces = before ++ piece :: after) :
    (s.program comments).callsIn before.length = Draft.calls s.entries piece := by
  rw [Program.callsIn, ← Draft.filterMap_link]
  exact filterMap_region (fun i => i.operation.callTarget?) hsplit

/-! ## What stands in the regions -/

theorem isClosed_of_mem_pieces (h : piece ∈ s.pieces) : Draft.IsClosed piece := by
  rcases List.mem_cons.mp h with rfl | h
  · exact s.isClosed_entryCode
  · obtain ⟨d, -, rfl⟩ := List.mem_map.mp h
    exact d.isClosed_code _

/-- Only the first draft of a function enters a function, and conditional jumps go forward. -/
theorem isInner_of_split (hsplit : s.pieces = before ++ piece :: after) {d : Draft}
    (hk : piece[k]? = some d) :
    d.action.IsInner ∨ k = 0 ∧ ∃ ds e es locals, s.definitions = ds ++ e :: es ∧
      before = s.entryCode :: ds.map (Definition.code s.functionScope) ∧
      d.action = .fixed (.enter locals) ∧ d.label = some e.name := by
  rcases pieces_split hsplit with ⟨rfl, rfl⟩ | ⟨ds, e, es, hdefinitions, rfl, rfl⟩
  · exact .inl (s.inner_entryCode d (List.mem_of_getElem? hk))
  · cases k with
    | zero =>
      obtain rfl := Option.some.inj hk
      exact .inr ⟨rfl, ds, e, es, _, hdefinitions, rfl, rfl, rfl⟩
    | succ k => exact .inl (e.inner_tail _ d (List.mem_of_getElem? hk))

theorem mem_entriesFrom_iff {σ : Scope} {address : Nat} {ds : List Definition} {f : String × Nat} :
    f ∈ entriesFrom σ address ds ↔ ∃ front d back, ds = front ++ d :: back ∧
      f = (d.name, address + (front.flatMap (Definition.code σ)).length) := by
  constructor
  · intro h
    induction ds generalizing address with
    | nil => cases h
    | cons e ds ih =>
      rcases List.mem_cons.mp h with rfl | h
      · exact ⟨[], e, ds, rfl, rfl⟩
      · obtain ⟨front, d, back, rfl, rfl⟩ := ih h
        refine ⟨e :: front, d, back, rfl, ?_⟩
        rw [List.flatMap_cons, List.length_append, Nat.add_assoc]
  · rintro ⟨front, d, back, rfl, rfl⟩
    rw [entriesFrom_append, entriesFrom]
    exact List.mem_append_right _ List.mem_cons_self

/-- The calls outside functions are those of the statements there, and the call of the first
function. -/
theorem calls_entryCode (s : Script) :
    Draft.calls s.entries s.entryCode = s.startScope.calls s.entries (s.entry.callees false) ++
      [((s.entries.lookup entryName).map Int.ofNat).getD (-1)] := by
  rw [entryCode, Draft.calls_append, Stmt.calls_code s.lists_startScope]
  rfl

theorem calls_definition (s : Script) (d : Definition) :
    Draft.calls s.entries (d.code s.functionScope) =
      s.startScope.calls s.entries (d.body.callees true) := by
  have hsignatures : (d.scope s.functionScope).signatures = s.startScope.signatures :=
    (Simulation.grows_scopeAfter s.startScope s.entry).signatures
  have hbody := Stmt.calls_code (s.lists_startScope.congr hsignatures) d.body
  rw [Scope.calls_congr hsignatures] at hbody
  rw [Definition.code, ← List.singleton_append, Draft.calls_append, Draft.calls_append, hbody]
  exact List.append_nil _

end Script

/-! ## Resolved programs -/

/-- All targets in the program of a script are resolved. -/
structure Script.Resolved (s : Script) (p : Program) : Prop where
  /-- A jump leads to an address of its region. -/
  jump : ∀ (address : Nat) i target, p.code[address]? = some i → i.operation = .jump target →
    ∃ b < p.size, target = b ∧ p.region b = p.region address
  /-- A conditional jump leads forward. -/
  jumpIfZero : ∀ (address : Nat) i target, p.code[address]? = some i →
    i.operation = .jumpIfZero target →
    ∃ b < p.size, target = b ∧ address < b ∧ p.region b = p.region address
  /-- The functions stand one behind the other. -/
  increasing : (p.functions.map Prod.snd).Pairwise (· < ·)
  /-- The entry of a function is where it is entered. -/
  entered : ∀ f ∈ p.functions, ∃ i locals, p.code[f.2]? = some i ∧ i.operation = .enter locals ∧
    i.label = some f.1
  /-- Nothing else is entered. -/
  enter : ∀ (address : Nat) i locals, p.code[address]? = some i → i.operation = .enter locals →
    ∃ f ∈ p.functions, f.2 = address
  /-- Outside functions the first function is called last, and then the run ends. -/
  outside : ∃ last, (∃ i, p.code[last]? = some i ∧ i.operation = .call p.startTarget) ∧
    (∃ i, p.code[last + 1]? = some i ∧ i.operation = .halt) ∧
    ∀ address < p.size, p.region address = 0 ↔ address ≤ last + 1
  /-- The calls outside functions go to their callees, and the last one starts the program. -/
  calls : p.callsIn 0 =
    ((s.entry.callees false).filter (!s.startScope.prints ·)).map p.entryOf ++ [p.startTarget]
  /-- The calls in a function go to their callees. -/
  callsInFunction : ∀ k d, s.definitions[k]? = some d →
    p.callsIn (k + 1) = ((d.body.callees true).filter (!s.startScope.prints ·)).map p.entryOf

namespace Script

variable {s : Script} {comments : Bool} {address : Nat} {i : Instruction}

/-- A jump leads to an address of its region, and forward on a condition. -/
theorem exists_target (h : (s.program comments).code[address]? = some i) {target : Int}
    (hjump : i.operation = .jump target ∨ i.operation = .jumpIfZero target) :
    ∃ b < (s.program comments).size, target = b ∧
      (s.program comments).region b = (s.program comments).region address ∧
      (i.operation = .jumpIfZero target → address < b) := by
  obtain ⟨before, piece, after, k, d, hsplit, rfl, hk, hoperation⟩ := exists_piece h
  have hmem : piece ∈ s.pieces := hsplit ▸ List.mem_append_right _ List.mem_cons_self
  have hclosed := isClosed_of_mem_pieces hmem
  have hlt := (List.getElem?_eq_some_iff.mp hk).1
  rw [hoperation] at hjump ⊢
  obtain ⟨distance, rfl, haction⟩ :=
    Draft.Action.exists_distance (hclosed.settled d (List.mem_of_getElem? hk)) hjump
  have hjumps : d.Jumps distance := haction.imp And.left id
  obtain ⟨b, hb, hblt⟩ := hclosed.jumps k d distance hk hjumps
  refine ⟨before.flatten.length + b, ?_, by omega, ?_, fun hcondition => ?_⟩
  · rw [size_program, ← flatten_pieces, hsplit, List.flatten_append, List.flatten_cons,
      List.length_append, List.length_append]
    omega
  · rw [region_program hsplit hblt, region_program hsplit hlt]
  · rcases haction with ⟨-, hne⟩ | haction
    · exact absurd hcondition hne
    · rcases isInner_of_split hsplit hk with hinner | ⟨-, ds, e, es, locals, -, -, henter, -⟩
      · rw [haction] at hinner
        have hforward : 0 < distance := hinner
        omega
      · rw [haction] at henter
        cases henter

theorem mem_entries_iff {f : String × Nat} :
    f ∈ s.entries ↔ ∃ ds d es, s.definitions = ds ++ d :: es ∧
      f = (d.name, (s.entryCode :: ds.map (Definition.code s.functionScope)).flatten.length) := by
  simp only [entries, mem_entriesFrom_iff, length_flatten_pieces]

/-- The entry of a function is where it is entered. -/
theorem exists_enter {f : String × Nat} (hf : f ∈ s.entries) :
    ∃ i locals, (s.program comments).code[f.2]? = some i ∧ i.operation = .enter locals ∧
      i.label = some f.1 := by
  obtain ⟨ds, d, es, hdefinitions, rfl⟩ := mem_entries_iff.mp hf
  have hcode : s.code[(s.entryCode :: ds.map (Definition.code s.functionScope)).flatten.length]? =
      (d.code s.functionScope)[0]? := by
    rw [← flatten_pieces, pieces_eq hdefinitions]
    exact getElem?_flatten_piece (List.length_pos_of_ne_nil (List.cons_ne_nil _ _))
  exact ⟨_, d.written.locals, by rw [getElem?_program, hcode]; rfl, rfl, rfl⟩

/-- Nothing else is entered. -/
theorem exists_mem_entries (h : (s.program comments).code[address]? = some i) {locals : Int}
    (henter : i.operation = .enter locals) : ∃ f ∈ s.entries, f.2 = address := by
  obtain ⟨before, piece, after, k, d, hsplit, rfl, hk, hoperation⟩ := exists_piece h
  rcases isInner_of_split hsplit hk with hinner | ⟨rfl, ds, e, es, locals', hdefinitions, rfl, -, -⟩
  · rw [hoperation] at henter
    cases haction : d.action <;> rw [haction] at hinner henter <;> cases henter
    exact absurd hinner id
  · exact ⟨_, mem_entries_iff.mpr ⟨ds, e, es, hdefinitions, rfl⟩, rfl⟩

theorem resolved_program (s : Script) (comments : Bool) : s.Resolved (s.program comments) where
  jump address i target h hjump := by
    obtain ⟨b, hb, htarget, hregion, -⟩ := exists_target h (.inl hjump)
    exact ⟨b, hb, htarget, hregion⟩
  jumpIfZero address i target h hjump := by
    obtain ⟨b, hb, htarget, hregion, hforward⟩ := exists_target h (.inr hjump)
    exact ⟨b, hb, htarget, hforward hjump, hregion⟩
  increasing := pairwise_entriesFrom
  entered f hf := exists_enter hf
  enter address i locals h henter := exists_mem_entries h henter
  outside := by
    have hsplit : s.pieces = [] ++ s.pieces := rfl
    have hlength : s.entryCode.length = (s.entry.code s.startScope).length + 2 := by
      simp [entryCode]
    obtain ⟨-, hcall, hhalt⟩ := s.program_has_entry comments
    refine ⟨(s.entry.code s.startScope).length, hcall, hhalt, fun address haddress => ⟨?_, ?_⟩⟩
    · intro hregion
      obtain ⟨k, hk, rfl⟩ := exists_of_region_eq hsplit haddress hregion
      rw [List.flatten_nil, List.length_nil]
      omega
    · intro hle
      have hlt : address < s.entryCode.length := by omega
      rw [← Nat.zero_add address]
      exact region_program hsplit hlt
  calls := by
    have hsplit : s.pieces = [] ++ s.pieces := rfl
    have hcalls : (s.program comments).callsIn 0 = _ := callsIn_program hsplit
    rw [calls_entryCode] at hcalls
    exact hcalls
  callsInFunction k d hd := by
    obtain ⟨hk, rfl⟩ := List.getElem?_eq_some_iff.mp hd
    have hdefinitions : s.definitions =
        s.definitions.take k ++ s.definitions[k] :: s.definitions.drop (k + 1) := by
      rw [← List.drop_eq_getElem_cons hk, List.take_append_drop]
    have hcalls : (s.program comments).callsIn _ = _ := callsIn_program (pieces_eq hdefinitions)
    rw [calls_definition, List.length_cons, List.length_map, List.length_take,
      Nat.min_eq_left hk.le] at hcalls
    exact hcalls

end Script

/-- The program starts nowhere exactly if there is no first function. -/
theorem Program.startTarget_eq_neg_one_iff (p : Program) :
    p.startTarget = -1 ↔ p.functions.lookup entryName = none := by
  rw [startTarget]
  cases p.functions.lookup entryName with
  | none => simp
  | some entry => simp only [Option.map_some, Option.getD_some, reduceCtorEq]

/-- Whatever the tree of a program, all targets in the program made of it are resolved. The table of
functions has the functions with a name and a body in the order in which they are defined, and where
it has no first function the program starts at -1. -/
theorem targets_resolved {options : CompileOptions} {lines : List String} {t : Tree} {p : Program}
    {report : Report Diagnostic} (hroot : t.kind = .program)
    (h : (Generation.ofTree options lines t).result = .ok (p, report)) :
    ∃ s, Script.ofTree? t = some s ∧ s.Resolved p ∧
      p.functions.map Prod.fst = t.definedNames ∧
      (p.startTarget = -1 ↔ p.functions.lookup entryName = none) := by
  obtain ⟨s, hs⟩ : ∃ s, Script.ofTree? t = some s := ⟨_, if_pos hroot⟩
  rw [Generation.ofTree, hs] at h
  obtain ⟨rfl, -, -⟩ := Generation.ofScript_eq_ok h
  refine ⟨s, hs, s.resolved_program _, ?_, Program.startTarget_eq_neg_one_iff _⟩
  exact Script.map_fst_entriesFrom.trans (Script.names_definitions_ofTree hs)

/-- A program node that no source text has: a call of a function without a body, a loop whose
condition has no operands, and two functions of one name. -/
def ragged : Tree :=
  { kind := .program
    children :=
      [{ kind := .functionCall, attributes := [("name", "helper")] },
        { kind := .function, attributes := [("name", "helper")] },
        { kind := .function
          attributes := [("name", "twice")]
          children :=
            [{ kind := .block
               children :=
                [{ kind := .loop
                   children :=
                    [{ kind := .condition },
                      { kind := .block, children := [{ kind := .giveBack }] }] },
                  { kind := .giveBack
                    children := [{ kind := .functionCall
                                   attributes := [("name", "twice")] }] }] }] },
        { kind := .function
          attributes := [("name", "twice")]
          children := [{ kind := .block }] }] }

theorem targets_resolved_ragged :
    ragged.kind = .program ∧ ∃ p report, (Generation.ofTree {} [] ragged).result = .ok (p, report) ∧
      ∃ s, Script.ofTree? ragged = some s ∧ s.Resolved p ∧
        p.functions.map Prod.fst = ragged.definedNames ∧
        (p.startTarget = -1 ↔ p.functions.lookup entryName = none) := by
  have hroot : ragged.kind = .program := rfl
  have hreturns : (Generation.ofTree {} [] ragged).result.toBool = true := by decide +kernel
  refine ⟨hroot, ?_⟩
  cases hresult : (Generation.ofTree {} [] ragged).result with
  | error b =>
    rw [hresult] at hreturns
    cases hreturns
  | ok generated => exact ⟨generated.1, generated.2, rfl, targets_resolved hroot hresult⟩

end StackLang
