import StackLang.Command.Compiler
import StackLang.Proofs.Paths

/-!
# The file that the compiler command writes

Without an output option, the compiler command writes one file: the listing, beside its input and
named after it. It writes when everything before has succeeded, and whatever goes wrong leaves the
files as they are. An input that already has the suffix of listings is replaced by its own listing.
-/

namespace StackLang.Command

/-! ## Given options -/

/-- Only options of the command are opened. -/
def Opened.From (forms : List OptionForm) (o : Opened) : Prop :=
  (∀ form ∈ o.flags, form ∈ forms) ∧ ∀ v, o.valued = some v → v.form ∈ forms

theorem Opened.from_nil (forms : List OptionForm) : Opened.From forms {} :=
  ⟨fun _ hform => absurd hform List.not_mem_nil, fun v hv => absurd hv (by simp)⟩

theorem Opened.from_valued {forms : List OptionForm} {v : Valued} (h : v.form ∈ forms) :
    Opened.From forms { valued := some v } :=
  ⟨fun _ hform => absurd hform List.not_mem_nil, fun _ hw => Option.some.inj hw ▸ h⟩

theorem Opened.From.cons {forms : List OptionForm} {form : OptionForm} {o : Opened}
    (h : o.From forms) (hform : form ∈ forms) :
    Opened.From forms { o with flags := form :: o.flags } :=
  ⟨fun other hother => (List.mem_cons.mp hother).elim (fun heq => heq ▸ hform) (h.1 other), h.2⟩

theorem exists_of_map_eq_ok {ε α β : Type} {x : Except ε α} {f : α → β} {b : β}
    (h : x.map f = .ok b) : ∃ a, x = .ok a ∧ f a = b := by
  cases x with
  | error e => cases h
  | ok a => exact ⟨a, rfl, Except.ok.inj h⟩

theorem from_openShort {forms : List OptionForm} {cs : List Char} {o : Opened}
    (h : openShort forms cs = .ok o) : o.From forms := by
  induction cs generalizing o with
  | nil =>
    rw [openShort] at h
    exact Except.ok.inj h ▸ Opened.from_nil forms
  | cons c cs ih =>
    simp only [openShort] at h
    split at h
    · simp at h
    · rename_i form hform
      have hmem := List.mem_of_find?_eq_some hform
      split at h
      · exact Except.ok.inj h ▸ Opened.from_valued hmem
      · obtain ⟨rest, hrest, rfl⟩ := exists_of_map_eq_ok h
        exact (ih hrest).cons hmem

theorem from_openOption {forms : List OptionForm} {arg : String} {o : Opened}
    (h : openOption forms arg = .ok o) : o.From forms := by
  simp only [openOption] at h
  split at h
  · rename_i form hform
    have hmem := List.mem_of_find?_eq_some hform
    split at h
    · exact Except.ok.inj h ▸ Opened.from_valued hmem
    · split at h
      · simp at h
      · exact Except.ok.inj h ▸ (Opened.from_nil forms).cons hmem
  · split at h
    · simp at h
    · exact from_openShort h

namespace Arguments

/-- Only options of the command are given. -/
def From (forms : List OptionForm) (a : Arguments) : Prop := ∀ g ∈ a.given, g.form ∈ forms

theorem From.withFlags {forms flags : List OptionForm} {a : Arguments} (h : a.From forms)
    (hflags : ∀ form ∈ flags, form ∈ forms) : (a.withFlags flags).From forms := by
  intro g hg
  rcases List.mem_append.mp hg with hflag | hgiven
  · obtain ⟨form, hform, rfl⟩ := List.mem_map.mp hflag
    exact hflags form hform
  · exact h g hgiven

theorem From.withValue {forms : List OptionForm} {form : OptionForm} {a : Arguments}
    (h : a.From forms) (hform : form ∈ forms) (value : String) :
    (a.withValue form value).From forms := by
  intro g hg
  rcases List.mem_cons.mp hg with rfl | hgiven
  · exact hform
  · exact h g hgiven

theorem from_sort {forms : List OptionForm} {args : List String} {a : Arguments}
    (h : sort forms args = .ok a) : a.From forms := by
  fun_induction sort forms args generalizing a with
  | case1 | case2 =>
    rw [← Except.ok.inj h]
    exact fun _ hg => absurd hg List.not_mem_nil
  | case3 | case7 => simp at h
  | case4 arg _ _ opened hopened rest _ ih =>
    obtain ⟨b, hb, rfl⟩ := exists_of_map_eq_ok h
    exact (ih hb).withFlags (from_openOption hopened).1
  | case5 arg _ _ opened hopened form typed value rest hvalued ih
  | case6 arg _ _ opened hopened form typed value rest hvalued ih =>
    obtain ⟨b, hb, rfl⟩ := exists_of_map_eq_ok h
    obtain ⟨hflags, hform⟩ := from_openOption hopened
    exact ((ih hb).withValue (hform _ hvalued) value).withFlags hflags
  | case8 arg rest _ _ ih =>
    obtain ⟨b, hb, rfl⟩ := exists_of_map_eq_ok h
    have hfrom := ih hb
    exact hfrom

theorem mem_order {a : Arguments} {form : OptionForm} :
    form ∈ a.order ↔ ∃ g ∈ a.given, g.form = form := by
  rw [order, List.mem_eraseDups, List.mem_map]

theorem has_of_mem_order {a : Arguments} {form : OptionForm} (h : form ∈ a.order) :
    a.has form.long = true := by
  obtain ⟨g, hg, rfl⟩ := mem_order.mp h
  exact List.any_eq_true.mpr ⟨g, hg, decide_eq_true rfl⟩

/-- Whether the arguments ask to be shown something, and not for a listing. -/
def onlyShows (a : Arguments) : Bool :=
  a.has "--version" || a.has "--help" || a.has "--tokens" || a.has "--ast"

end Arguments

/-! ## Checked arguments -/

/-- Without an output option, all options of the compiler command are flags. -/
theorem kind_eq_flag {args : List String} {a : Arguments}
    (hsort : Arguments.sort compiler.forms args = .ok a) (houtput : a.has "--output" = false)
    {form : OptionForm} (h : form ∈ a.order) : form.kind = .flag := by
  have hforms : ∀ form ∈ compiler.forms, form.long ≠ "--output" → form.kind = .flag := by decide
  obtain ⟨g, hg, rfl⟩ := Arguments.mem_order.mp h
  refine hforms _ (Arguments.from_sort hsort g hg) fun hlong => ?_
  have hhas := Arguments.has_of_mem_order h
  rw [hlong, houtput] at hhas
  exact Bool.false_ne_true hhas

/-- Flags need no check. -/
theorem ofArguments_eq_addInput {a : Arguments} (fs : Files)
    (h : ∀ form ∈ a.order, form.kind = .flag) :
    Checked.ofArguments fs a = Checked.addInput fs a { input := .ofText "" } := by
  have hfold : ∀ (forms : List OptionForm) (c : Checked), (∀ form ∈ forms, form.kind = .flag) →
      forms.foldlM (Checked.addOption fs a) c = .ok c := by
    intro forms c hforms
    induction forms with
    | nil => rfl
    | cons form forms ih =>
      have hadd : Checked.addOption fs a c form = .ok c := by
        rw [Checked.addOption, hforms form List.mem_cons_self]
      rw [List.foldlM_cons, hadd]
      exact ih fun other hother => hforms other (List.mem_cons_of_mem _ hother)
  rw [Checked.ofArguments, hfold _ _ h]
  rfl

theorem addInput_of_file {fs : Files} {a : Arguments} {path : String} {bytes : List UInt8}
    (hothers : a.others = [path]) (hfile : fs.find? path = some (.file bytes)) (c : Checked) :
    Checked.addInput fs a c = .ok { c with input := .ofText path } := by
  have hpath : Files.isPath path = true := by
    cases hpath : Files.isPath path with
    | true => rfl
    | false =>
      rw [Files.find?, Files.place, if_pos (by simp [hpath])] at hfile
      simp at hfile
  rw [Checked.addInput, hothers]
  simp [hpath, hfile]

theorem exists_file_of_addInput {fs : Files} {a : Arguments} {c c' : Checked}
    (h : Checked.addInput fs a c = .ok c') :
    ∃ path bytes, a.others = [path] ∧ fs.find? path = some (.file bytes) ∧
      c' = { c with input := .ofText path } := by
  rw [Checked.addInput] at h
  split at h
  · simp at h
  · rename_i path extra hothers
    split at h
    · simp at h
    · split at h
      · simp at h
      · simp at h
      · rename_i bytes hfile
        split at h
        · rename_i hextra
          rw [List.isEmpty_iff.mp hextra] at hothers
          exact ⟨path, bytes, hothers, hfile, (Except.ok.inj h).symm⟩
        · simp at h

/-! ## Runs -/

/-- The source text of an input compiles, and there is a place for its listing. -/
structure Writes (fs : Files) (a : Arguments) (input : Path) (source : String)
    (compiled : Compiled) (place : FilePlace) : Prop where
  result_eq : (Compilation.ofSource { comments := !a.has "--no-comments" } input.text
    source).result = .ok compiled
  place_eq : fs.place (input.withSuffix ".lst").text = .ok place
  not_directory : fs.entry? place ≠ some .directory

/-- Everything that the compiler command needs in order to write a listing: one input file, a source
text that compiles, and a place for the listing. -/
structure Lists (fs : Files) (a : Arguments) (path source : String) (compiled : Compiled)
    (place : FilePlace) : Prop extends
    Writes fs a (Path.ofText path) source compiled place where
  others_eq : a.others = [path]
  isFile : ∃ bytes, fs.find? path = some (.file bytes)
  readText_eq : fs.readText (Path.ofText path).text = .ok source

/-- The bytes of a listing file. -/
def listingBytes (c : Compiled) : List UInt8 := (c.program.listing ++ "\n").toUTF8.toList

/-- A run that comes to nothing. -/
def Fails (fs : Files) (o : Outcome) : Prop := o.exit ≠ .success ∧ o.files = fs

/-- A run that writes a listing. -/
def Succeeds (fs : Files) (compiled : Compiled) (place : FilePlace) (o : Outcome) : Prop :=
  o.exit = .success ∧ o.files = fs.set place (listingBytes compiled)

theorem fails_refuse (t : Tool) (fs : Files) (e : UsageError) : Fails fs (t.refuse fs e) := by
  rw [Tool.refuse]
  split
  · exact ⟨by simp, rfl⟩
  · exact ⟨by simp, rfl⟩

theorem fails_compilerFailure (fs : Files) (err : List Line) (f : Failure) :
    Fails fs (compilerFailure fs err f) := by
  refine ⟨?_, rfl⟩
  simp only [compilerFailure]
  unfold Failure.exitCode
  split <;> simp

theorem write_of_place {fs : Files} {path : String} {place : FilePlace}
    (hplace : fs.place path = .ok place) (hfree : fs.entry? place ≠ some .directory)
    (bytes : List UInt8) : fs.write path bytes = .ok (fs.set place bytes) := by
  simp only [Files.write, hplace, bind, Except.bind]

theorem exists_place_of_write {fs fs' : Files} {path : String} {bytes : List UInt8}
    (h : fs.write path bytes = .ok fs') :
    ∃ place, fs.place path = .ok place ∧ fs.entry? place ≠ some .directory ∧
      fs' = fs.set place bytes := by
  cases hplace : fs.place path with
  | error e => simp [Files.write, hplace, bind, Except.bind] at h
  | ok place =>
    simp only [Files.write, hplace, bind, Except.bind] at h
    split at h
    · cases h
    · rename_i hfree
      exact ⟨place, rfl, hfree, (Except.ok.inj h).symm⟩

theorem not_shown {a : Arguments} (h : a.onlyShows = false) :
    a.has "--version" = false ∧ a.has "--help" = false ∧ a.has "--tokens" = false ∧
      a.has "--ast" = false := by
  simpa only [Arguments.onlyShows, Bool.or_eq_false_iff, and_assoc] using h

section Runs

variable {fs : Files} {args : List String} {a : Arguments}

/-- A source text is listed, or it cannot be. -/
theorem compileSource_cases (fs : Files) (hshows : a.onlyShows = false) (c : Checked)
    (houtput : c.output = none) (source : String) :
    (Fails fs (compileSource fs a c source) ∧
      ∀ compiled place, ¬Writes fs a c.input source compiled place) ∨
    ∃ compiled place, Writes fs a c.input source compiled place ∧
      Succeeds fs compiled place (compileSource fs a c source) := by
  obtain ⟨-, -, htokens, htree⟩ := not_shown hshows
  simp only [compileSource, htokens, htree, Bool.false_eq_true, if_false, houtput,
    Option.getD_none]
  cases hresult : (Compilation.ofSource { comments := !a.has "--no-comments" } c.input.text
      source).result with
  | error r =>
    refine .inl ⟨fails_compilerFailure fs _ _, fun compiled place h => ?_⟩
    rw [h.result_eq] at hresult
    cases hresult
  | ok compiled =>
    simp only [writeListing]
    cases hwrite : fs.write (c.input.withSuffix ".lst").text
        (compiled.program.listing ++ "\n").toUTF8.toList with
    | error e =>
      refine .inl ⟨fails_compilerFailure fs _ _, fun _ place h => ?_⟩
      rw [write_of_place h.place_eq h.not_directory] at hwrite
      cases hwrite
    | ok fs' =>
      obtain ⟨place, hplace, hfree, rfl⟩ := exists_place_of_write hwrite
      exact .inr ⟨compiled, place, ⟨hresult, hplace, hfree⟩, rfl, rfl⟩

theorem find?_order_eq_none (hversion : a.has "--version" = false)
    (hhelp : a.has "--help" = false) :
    ((a.order.map (·.long)).find? fun long => long = "--version" || long = "--help") = none := by
  rw [List.find?_eq_none]
  intro long hlong hshown
  obtain ⟨form, hform, rfl⟩ := List.mem_map.mp hlong
  have hhas := Arguments.has_of_mem_order hform
  rcases (Bool.or_eq_true _ _).mp hshown with heq | heq
  · rw [of_decide_eq_true heq, hversion] at hhas
    exact Bool.false_ne_true hhas
  · rw [of_decide_eq_true heq, hhelp] at hhas
    exact Bool.false_ne_true hhas

/-- Asked for a listing, the command writes it if it can, and otherwise fails. -/
theorem runCompiler_cases (fs : Files) (hsort : Arguments.sort compiler.forms args = .ok a)
    (houtput : a.has "--output" = false) (hshows : a.onlyShows = false) :
    ∃ o, runCompiler fs args = some o ∧
      ((Fails fs o ∧ ∀ path source compiled place, ¬Lists fs a path source compiled place) ∨
        ∃ path source compiled place, Lists fs a path source compiled place ∧
          Succeeds fs compiled place o) := by
  obtain ⟨hversion, hhelp, -, -⟩ := not_shown hshows
  have hchecked := ofArguments_eq_addInput fs fun _ hform => kind_eq_flag hsort houtput hform
  simp only [runCompiler, Tool.carryOut, hsort, find?_order_eq_none hversion hhelp, hchecked]
  cases hinput : Checked.addInput fs a { input := .ofText "" } with
  | error e =>
    refine ⟨_, rfl, .inl ⟨fails_refuse compiler fs e, fun path source compiled place h => ?_⟩⟩
    obtain ⟨bytes, hfile⟩ := h.isFile
    rw [addInput_of_file h.others_eq hfile] at hinput
    cases hinput
  | ok c =>
    obtain ⟨path, bytes, hothers, hfile, rfl⟩ := exists_file_of_addInput hinput
    refine ⟨_, rfl, ?_⟩
    have hpath : ∀ {other source compiled place}, Lists fs a other source compiled place →
        other = path := by
      intro other source compiled place h
      exact (List.cons.inj (h.others_eq.symm.trans hothers)).1
    cases hsource : fs.readText (Path.ofText path).text with
    | error f =>
      refine .inl ⟨fails_compilerFailure fs _ _, fun other source compiled place h => ?_⟩
      rw [← hpath h, h.readText_eq] at hsource
      cases hsource
    | ok source =>
      rcases compileSource_cases fs hshows { input := .ofText path } rfl source with
        ⟨hfails, hnone⟩ | ⟨compiled, place, hwrites, hsucceeds⟩
      · refine .inl ⟨hfails, fun other source' compiled place h => ?_⟩
        obtain rfl := hpath h
        obtain rfl := Except.ok.inj (h.readText_eq.symm.trans hsource)
        exact hnone compiled place h.toWrites
      · exact .inr ⟨path, source, compiled, place, ⟨hwrites, hothers, ⟨bytes, hfile⟩, hsource⟩,
          hsucceeds⟩

theorem files_compileSource (fs : Files) (c : Checked) (source : String)
    (h : a.has "--tokens" = true ∨ a.has "--ast" = true) :
    (compileSource fs a c source).files = fs := by
  simp only [compileSource]
  split
  · split <;> rfl
  · rename_i htokens
    rw [if_pos (h.resolve_left htokens)]
    split <;> rfl

/-- Asked to show something, the command leaves the files as they are. -/
theorem exists_outcome_of_onlyShows (fs : Files)
    (hsort : Arguments.sort compiler.forms args = .ok a) (hshows : a.onlyShows = true) :
    ∃ o, runCompiler fs args = some o ∧ o.files = fs := by
  simp only [runCompiler, Tool.carryOut, hsort]
  split
  · exact ⟨_, rfl, rfl⟩
  · exact ⟨_, rfl, rfl⟩
  · rename_i hnone
    have habsent : ∀ long, long = "--version" ∨ long = "--help" → a.has long = false := by
      intro long hlong
      refine Bool.eq_false_iff.mpr fun hhas => ?_
      obtain ⟨g, hg, hform⟩ := List.any_eq_true.mp hhas
      refine List.find?_eq_none.mp hnone long ?_ (by simpa using hlong)
      exact List.mem_map.mpr ⟨g.form, Arguments.mem_order.mpr ⟨g, hg, rfl⟩, of_decide_eq_true hform⟩
    have hdumps : a.has "--tokens" = true ∨ a.has "--ast" = true := by
      rw [Arguments.onlyShows, habsent _ (.inl rfl), habsent _ (.inr rfl)] at hshows
      simpa using hshows
    split
    · exact ⟨_, rfl, (fails_refuse compiler fs _).2⟩
    · refine ⟨_, rfl, ?_⟩
      split
      · rfl
      · exact files_compileSource fs _ _ hdumps

theorem Lists.unique {path path' source source' : String} {compiled compiled' : Compiled}
    {place place' : FilePlace} (h : Lists fs a path source compiled place)
    (h' : Lists fs a path' source' compiled' place') :
    path = path' ∧ compiled = compiled' ∧ place = place' := by
  obtain rfl : path = path' := (List.cons.inj (h.others_eq.symm.trans h'.others_eq)).1
  obtain rfl := Except.ok.inj (h.readText_eq.symm.trans h'.readText_eq)
  exact ⟨rfl, Except.ok.inj (h.result_eq.symm.trans h'.result_eq),
    Except.ok.inj (h.place_eq.symm.trans h'.place_eq)⟩

theorem Lists.exists_origin {path source : String} {compiled : Compiled} {place : FilePlace}
    (h : Lists fs a path source compiled place) :
    ∃ origin, fs.place (Path.ofText path).text = .ok origin ∧
      (origin = place ↔ (Path.ofText path).withSuffix ".lst" = Path.ofText path) := by
  cases horigin : fs.place (Path.ofText path).text with
  | error e =>
    have hread := h.readText_eq
    simp [Files.readText, Files.read, horigin, bind, Except.bind] at hread
  | ok origin =>
    exact ⟨origin, rfl,
      Path.place_eq_place_withSuffix_iff (by decide) (by decide) horigin h.place_eq⟩

end Runs

/-- An empty source file in a directory, and an empty file that is named like a listing. -/
def shelf : Files := ⟨[(["d", "p.bl"], .file []), (["p.lst"], .file [])]⟩

end StackLang.Command
