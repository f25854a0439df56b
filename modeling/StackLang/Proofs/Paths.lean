import StackLang.Files

/-!
# Where paths lead

The text of a normal path is followed through its root and its parts. A path with another suffix
therefore leads out of the same directory as the path itself, and to another place unless the two
paths are equal.
-/

namespace StackLang

/-! ## Parts of texts -/

theorem Text.partsAt_eq_splitOn (separator : Char) (cs : List Char) :
    Text.partsAt separator cs = cs.splitOn separator := by
  induction cs with
  | nil => exact (List.splitOn_nil separator).symm
  | cons c cs ih =>
    obtain ⟨part, others, hparts⟩ :=
      List.exists_cons_of_ne_nil (List.splitOnP_ne_nil (· == separator) cs)
    have hcons : (c :: cs).splitOn separator =
        if (c == separator) = true then [] :: cs.splitOn separator
        else (cs.splitOn separator).modifyHead (List.cons c) :=
      List.splitOnP_cons_eq_if_modifyHead c cs
    change cs.splitOn separator = part :: others at hparts
    rw [hcons]
    simp only [partsAt, List.foldr_cons] at ih ⊢
    rw [ih, hparts, List.modifyHead_cons]
    by_cases hc : c = separator <;> simp [hc]

theorem Text.not_mem_of_mem_partsAt {separator : Char} {cs part : List Char}
    (h : part ∈ Text.partsAt separator cs) : separator ∉ part := by
  induction cs generalizing part with
  | nil =>
    rw [List.mem_singleton.mp h]
    exact List.not_mem_nil
  | cons c cs ih =>
    simp only [partsAt, List.foldr_cons] at h ih
    split at h
    · rcases List.mem_cons.mp h with rfl | h
      · exact List.not_mem_nil
      · exact ih h
    · rename_i hc
      split at h
      · rename_i first others hparts
        rcases List.mem_cons.mp h with rfl | h
        · exact List.not_mem_cons_of_ne_of_not_mem (Ne.symm hc)
            (ih (by rw [hparts]; exact List.mem_cons_self))
        · exact ih (by rw [hparts]; exact List.mem_cons_of_mem _ h)
      · rw [List.mem_singleton.mp h]
        exact List.not_mem_cons_of_ne_of_not_mem (Ne.symm hc) List.not_mem_nil

/-- Parts that are put together are found again. -/
theorem rawParts_intercalate {names : List String} (hne : names ≠ [])
    (h : ∀ name ∈ names, '/' ∉ name.toList) : rawParts ("/".intercalate names) = names := by
  have hparts : ∀ part ∈ names.map String.toList, '/' ∉ part := by
    intro part hpart
    obtain ⟨name, hname, rfl⟩ := List.mem_map.mp hpart
    exact h name hname
  have hsplit := List.splitOn_intercalate '/' hparts (by simpa using hne)
  rw [rawParts, Text.partsAt_eq_splitOn, String.toList_intercalate]
  change (List.splitOn '/' (['/'].intercalate _)).map _ = _
  rw [hsplit, List.map_map]
  simp [Function.comp_def]

namespace Path

/-! ## Normal paths -/

/-- A root of at most two slashes, and parts that are names. -/
structure IsNormal (p : Path) : Prop where
  root : p.root = "" ∨ p.root = "/" ∨ p.root = "//"
  part_ne : ∀ part ∈ p.parts, part ≠ ""
  slash_not_mem : ∀ part ∈ p.parts, '/' ∉ part.toList

theorem isNormal_ofText (s : String) : (ofText s).IsNormal where
  root := by
    simp only [ofText, rootOf]
    split <;> simp
  part_ne := by
    intro part hpart
    have h := (List.mem_filter.mp hpart).2
    rintro rfl
    simp at h
  slash_not_mem := by
    intro part hpart
    obtain ⟨cs, hcs, rfl⟩ := List.mem_map.mp (List.mem_filter.mp hpart).1
    rw [String.toList_ofList]
    exact Text.not_mem_of_mem_partsAt hcs

/-- No part of a typed path is a dot. -/
theorem ne_dot_of_mem_parts {s part : String} (h : part ∈ (ofText s).parts) : part ≠ "." := by
  have hdot := (List.mem_filter.mp h).2
  rintro rfl
  simp at hdot

theorem mem_of_mem_stem {name : List Char} {c : Char} (h : c ∈ stem name) : c ∈ name := by
  simp only [stem] at h
  split at h
  · rename_i before hbefore
    split at h
    · exact h
    · have hdrop : c ∈ name.reverse.dropWhile (· != '.') := by
        rw [hbefore]
        exact List.mem_cons_of_mem _ (List.mem_reverse.mp h)
      exact List.mem_reverse.mp ((List.dropWhile_sublist _).subset hdrop)
  · exact h

/-- The last part of a path with a suffix. -/
def suffixed (name suffix : String) : String := String.ofList (stem name.toList) ++ suffix

theorem withSuffix_of_parts {p : Path} {ps : List String} {name : String}
    (h : p.parts = ps ++ [name]) (suffix : String) :
    p.withSuffix suffix = ⟨p.root, ps ++ [suffixed name suffix]⟩ := by
  rw [withSuffix, h, List.getLast?_concat, List.dropLast_concat]
  rfl

theorem IsNormal.withSuffix {p : Path} {ps : List String} {name suffix : String}
    (h : p.IsNormal) (hparts : p.parts = ps ++ [name]) (hsuffix : suffix ≠ "")
    (hslash : '/' ∉ suffix.toList) : (p.withSuffix suffix).IsNormal := by
  rw [withSuffix_of_parts hparts]
  refine ⟨h.root, fun part hpart => ?_, fun part hpart => ?_⟩
  all_goals rcases List.mem_append.mp hpart with hmem | hmem
  · exact h.part_ne part (by rw [hparts]; exact List.mem_append_left _ hmem)
  · rw [List.mem_singleton.mp hmem, suffixed]
    simp [hsuffix]
  · exact h.slash_not_mem part (by rw [hparts]; exact List.mem_append_left _ hmem)
  · rw [List.mem_singleton.mp hmem, suffixed, String.toList_append, String.toList_ofList]
    rw [List.mem_append, not_or]
    exact ⟨fun hstem => h.slash_not_mem name (by simp [hparts]) (mem_of_mem_stem hstem), hslash⟩

/-! ## The way of a normal path -/

/-- The empty names that the slashes of a root stand for. -/
def lead (p : Path) : List String :=
  if p.root = "" then [] else if p.root = "/" then [""] else ["", ""]

/-- The place from which a normal path starts. -/
def origin (p : Path) : FilePlace := if p.root = "" then [] else ["/"]

theorem IsNormal.text_eq {p : Path} (h : p.IsNormal) (hne : p.parts ≠ []) :
    p.text = "/".intercalate (p.lead ++ p.parts) := by
  have hslash : ∀ names : List String, names ≠ [] →
      "/".intercalate ("" :: names) = "/" ++ "/".intercalate names := by
    intro names hnames
    rw [← String.toList_inj, String.toList_intercalate, String.toList_append,
      String.toList_intercalate, List.map_cons,
      List.intercalate_cons_of_ne_nil (by simpa using hnames)]
    rfl
  rw [text, if_neg (by simp [hne]), lead]
  rcases h.root with hroot | hroot | hroot
  · rw [hroot, if_pos rfl, String.empty_append, List.nil_append]
  · rw [hroot, if_neg (by decide), if_pos rfl]
    exact (hslash _ hne).symm
  · rw [hroot, if_neg (by decide), if_neg (by decide)]
    change _ = "/".intercalate ("" :: "" :: p.parts)
    rw [hslash _ (by simp), hslash _ hne, ← String.append_assoc]
    rfl

theorem IsNormal.rawParts_text {p : Path} (h : p.IsNormal) (hne : p.parts ≠ []) :
    rawParts p.text = p.lead ++ p.parts := by
  rw [h.text_eq hne]
  refine rawParts_intercalate (by simp [hne]) fun name hname => ?_
  rcases List.mem_append.mp hname with hlead | hpart
  · have hempty : name = "" := by
      simp only [lead] at hlead
      split at hlead
      · simp at hlead
      · split at hlead <;> simpa using hlead
    simp [hempty]
  · exact h.slash_not_mem name hpart

theorem IsNormal.start_text {p : Path} (h : p.IsNormal) (hne : p.parts ≠ []) :
    Files.start p.text = p.origin := by
  have htext : p.text = p.root ++ "/".intercalate p.parts := by
    rw [text, if_neg (by simp [hne])]
  rw [Files.start, origin, htext, String.toList_append, String.toList_intercalate]
  rcases h.root with hroot | hroot | hroot
  · obtain ⟨part, parts, hparts⟩ := List.exists_cons_of_ne_nil hne
    have hpart := h.part_ne part (by simp [hparts])
    have hslash := h.slash_not_mem part (by simp [hparts])
    obtain ⟨c, cs, hcs⟩ := List.exists_cons_of_ne_nil (by simpa using hpart : part.toList ≠ [])
    have hc : c ≠ '/' := by
      rintro rfl
      simp [hcs] at hslash
    rw [hroot, hparts, if_pos rfl, if_neg]
    cases parts with
    | nil => simp [hcs, hc]
    | cons next others => simp [hcs, hc]
  · simp [hroot]
  · simp [hroot]

/-- A normal path is followed through its root and its parts. -/
theorem IsNormal.follow_of_place {p : Path} (h : p.IsNormal) (hne : p.parts ≠ []) {fs : Files}
    {place : FilePlace} (hplace : fs.place p.text = .ok place) :
    fs.follow p.origin (p.lead ++ p.parts) = .ok place := by
  rw [Files.place] at hplace
  split at hplace
  · simp at hplace
  · split at hplace
    · simp at hplace
    · rwa [h.start_text hne, h.rawParts_text hne] at hplace

end Path

namespace Files

theorem follow_append (fs : Files) (place : FilePlace) (names others : List String) :
    fs.follow place (names ++ others) =
      (fs.follow place names).bind fun base => fs.follow base others := by
  induction names generalizing place with
  | nil => rfl
  | cons name names ih =>
    simp only [List.cons_append, follow]
    split
    · rfl
    · rfl
    · split
      · rfl
      · exact ih _

/-- The last name on a way is entered from where the others lead. -/
theorem exists_enter_of_follow {fs : Files} {start place : FilePlace} {names : List String}
    {name : String} (h : fs.follow start (names ++ [name]) = .ok place) :
    ∃ base, fs.follow start names = .ok base ∧ place = enter base name := by
  rw [follow_append] at h
  cases hbase : fs.follow start names with
  | error e => simp [hbase, Except.bind] at h
  | ok base =>
    refine ⟨base, rfl, ?_⟩
    simp only [hbase, Except.bind, follow] at h
    split at h
    · simp at h
    · simp at h
    · split at h
      · simp at h
      · exact (Except.ok.inj h).symm

/-- Other names of a directory lead to other places. -/
theorem enter_inj {base : FilePlace} {name other : String} (hname : name ≠ "" ∧ name ≠ ".")
    (hother : other ≠ "" ∧ other ≠ "." ∧ other ≠ "..") (h : enter base name = enter base other) :
    name = other := by
  have hright : enter base other = base ++ [other] := by
    simp [enter, hother.1, hother.2.1, hother.2.2]
  rw [hright] at h
  rw [enter, if_neg (by simp [hname.1, hname.2])] at h
  split at h
  · -- the directory above is the root itself, a further step up, or shorter
    simp only [parent] at h
    split at h
    · simpa using congrArg List.length h
    · split at h
      · exact absurd (List.cons.inj (List.append_cancel_left h)).1.symm hother.2.2
      · have hlength := congrArg List.length h
        simp only [List.length_dropLast, List.length_append, List.length_singleton] at hlength
        omega
  · exact (List.cons.inj (List.append_cancel_left h)).1

end Files

/-- A path with a suffix leads to the place of the path itself only if it is that path. -/
theorem Path.place_eq_place_withSuffix_iff {s suffix : String} {fs : Files}
    {place other : FilePlace} (hslash : '/' ∉ suffix.toList) (hlength : 2 < suffix.length)
    (hplace : fs.place (ofText s).text = .ok place)
    (hother : fs.place ((ofText s).withSuffix suffix).text = .ok other) :
    place = other ↔ (ofText s).withSuffix suffix = ofText s := by
  constructor
  · rintro rfl
    cases hlast : (ofText s).parts.getLast? with
    | none => rw [withSuffix, hlast]
    | some name =>
      obtain ⟨ps, hparts⟩ := List.getLast?_eq_some_iff.mp hlast
      have hnormal := isNormal_ofText s
      have hwith := withSuffix_of_parts hparts suffix
      have hsuffixed : 2 < (suffixed name suffix).length := by
        rw [suffixed, String.length_append]
        omega
      have hway := hnormal.follow_of_place (by simp [hparts]) hplace
      have hnormal' := hnormal.withSuffix hparts (by rintro rfl; simp at hlength) hslash
      have hway' := hnormal'.follow_of_place (by simp [hwith]) hother
      rw [hwith] at hway'
      rw [hparts, ← List.append_assoc] at hway
      change fs.follow (ofText s).origin ((ofText s).lead ++ (ps ++ [suffixed name suffix])) = _
        at hway'
      rw [← List.append_assoc] at hway'
      obtain ⟨base, hbase, henter⟩ := Files.exists_enter_of_follow hway
      obtain ⟨base', hbase', henter'⟩ := Files.exists_enter_of_follow hway'
      obtain rfl : base = base' := by
        rw [hbase] at hbase'
        exact Except.ok.inj hbase'
      have hmem : name ∈ (ofText s).parts := by simp [hparts]
      have hname : name = suffixed name suffix := by
        refine Files.enter_inj ⟨hnormal.part_ne name hmem, ne_dot_of_mem_parts hmem⟩ ?_
          (henter.symm.trans henter')
        refine ⟨?_, ?_, ?_⟩
        all_goals
          intro heq
          rw [heq] at hsuffixed
          exact absurd hsuffixed (by decide)
      rw [hwith, ← hname, ← hparts]
  · intro heq
    rw [heq, hplace] at hother
    exact Except.ok.inj hother

end StackLang
