import ApiManifest.Manifest.Stored
import ApiManifest.Proofs.Json.Readable
import ApiManifest.Proofs.Manifest.Lines
import ApiManifest.Proofs.Manifest.Record

/-!
The written form of a manifest under its reader. All of its characters are shown, so that a reader
places them as they are (`glyphs_yamlChars`); its tokens are assembled to a record whose scalars
spell the texts (`ofTokens_tokens`); and the record is the manifest again (`load_render`).
-/

set_option autoImplicit false
set_option relaxedAutoImplicit false

namespace ApiManifest

open Yaml

namespace Yaml

/-! ### Characters -/

variable {c : Char} {cs : List Char} {width : Nat}

theorem all_spaces (n : Nat) : (spaces n).all isShown = true :=
  List.all_eq_true.mpr fun c hc ↦ by rw [mem_spaces hc]; rfl

theorem all_indentation (afterBreak : Bool) :
    (indentation width afterBreak).all isShown = true := by
  unfold indentation
  split_ifs
  · exact all_spaces width
  · rfl

theorem all_singleChars (hcs : cs.all isShown = true) (afterBreak : Bool) :
    (singleChars width afterBreak cs).all isShown = true := by
  induction cs generalizing afterBreak with
  | nil => exact all_indentation afterBreak
  | cons c cs ih =>
    rw [List.all_cons, Bool.and_eq_true] at hcs
    have hquote : (if c = '\'' then ['\'', '\''] else [c]).all isShown = true := by
      split_ifs
      · rfl
      · rw [List.all_cons, hcs.1]
        rfl
    cases hends : endsLine c with
    | true =>
      rw [singleChars_break width _ hends, List.all_cons, hcs.1, ih hcs.2 true, Bool.and_self]
    | false =>
      by_cases hspace : c = ' '
      · rw [hspace, singleChars_space, List.all_cons, isShown_space, ih hcs.2 afterBreak,
          Bool.and_self]
      · rw [singleChars_char width _ hends hspace, List.all_append, List.all_append, hquote,
          ih hcs.2 false, all_indentation, Bool.and_self, Bool.and_self]

theorem all_literalChars (hcs : cs.all isShown = true) (afterBreak : Bool) :
    (literalChars width afterBreak cs).all isShown = true := by
  induction cs generalizing afterBreak with
  | nil => rfl
  | cons c cs ih =>
    rw [List.all_cons, Bool.and_eq_true] at hcs
    cases hends : endsLine c with
    | true => rw [literalChars_break _ hends, List.all_cons, hcs.1, ih hcs.2 true, Bool.and_self]
    | false =>
      rw [literalChars_char _ hends, List.all_append, List.all_cons, hcs.1, ih hcs.2 false,
        all_indentation, Bool.and_self, Bool.and_self]

/-- A scalar is written with characters that are shown. -/
theorem all_scalarChars (width : Nat) (value : String) :
    (scalarChars width value).all isShown = true := by
  unfold scalarChars
  obtain ⟨hstyle, _, hshown⟩ | hstyle | ⟨hstyle, hne, hplain⟩ | ⟨hstyle, _, hsingle⟩ :=
    writtenStyle_cases value
  · have hhint : (indentationHint value.toList).all isShown = true := by
      unfold indentationHint
      split
      · split_ifs <;> rfl
      · rfl
    have hchomp : (chompingHint value.toList).all isShown = true := by
      obtain ⟨h, _⟩ | ⟨h, _⟩ | ⟨h, _⟩ := chompingHint_cases value.toList <;> rw [h] <;> rfl
    have hlines : (literalChars width true value.toList).all isShown = true :=
      all_literalChars (List.all_eq_true.mpr hshown) true
    simp only [hstyle, List.all_append, List.all_cons, hhint, hchomp, hlines]
    rfl
  · have hchars : (value.toList.flatMap doubleChar).all isShown = true := by
      rw [List.all_eq_true]
      intro c hc
      obtain ⟨d, _, hd⟩ := List.mem_flatMap.mp hc
      exact (isShown_doubleChar hd).1
    simp only [hstyle, List.all_append, List.all_cons, hchars]
    rfl
  · simp only [plainAllowed, singleAllowed, Bool.and_eq_true] at hplain
    simp only [hstyle, hplain.1.1.1.1.1]
  · simp only [singleAllowed, Bool.and_eq_true] at hsingle
    simp only [hstyle, List.all_append, List.all_cons, all_singleChars hsingle.1.1 false]
    rfl

/-- Characters that are shown are placed as they are. -/
theorem glyphs_of_shown (hcs : cs.all isShown = true) : glyphs cs = .ok (place .start cs) := by
  have hshown := List.all_eq_true.mp hcs
  have hne {c : Char} (hc : isShown c = false) : c ∉ cs := fun h ↦ by
    have := hshown c h
    rw [hc] at this
    exact Bool.false_ne_true this
  rw [glyphs_eq (hne rfl), map_lineFeed (hne rfl), if_pos]
  exact List.all_eq_true.mpr fun c hc ↦ isAllowed_of_isShown (hshown c hc)

end Yaml

namespace Manifest

/-- A line is written with characters that are shown. -/
theorem all_fieldChars {key : String} (hkey : key.toList.all isShown = true) (width : Nat)
    (value : String) : (fieldChars key width value).all isShown = true := by
  have hend (b : Bool) : (if b then [] else ['\n']).all isShown = true := by
    split_ifs <;> rfl
  simp only [fieldChars, List.all_append, List.all_cons, hkey, all_scalarChars, hend]
  rfl

theorem all_entryChars (e : Entry) : (entryChars e).all isShown = true := by
  have hkeys : ∀ f ∈ e.fields, f.1.toList.all isShown = true := by
    have hall : ∀ k ∈ e.fields.map Prod.fst, k.toList.all isShown = true := by
      show ∀ k ∈ ["name", "url", "path", "version", "description", "summary"], _
      decide
    exact fun f hf ↦ hall f.1 (List.mem_map_of_mem hf)
  have hlines : ((e.fields.tail.flatMap fun (f : String × String) ↦
      spaces 2 ++ fieldChars f.1 4 f.2) ++ []).all isShown = true := by
    rw [List.append_nil, List.all_flatMap, List.all_eq_true]
    intro f hf
    rw [List.all_append, all_spaces, all_fieldChars (hkeys f (List.mem_of_mem_tail hf)),
      Bool.and_self]
  have hfirst := all_fieldChars (hkeys ("name", e.name) List.mem_cons_self) 4 e.name
  rw [← List.append_nil (entryChars e), entryChars_append, List.all_cons, List.all_cons,
    List.all_append, hfirst, hlines]
  rfl

/-- A written manifest is placed as it is. -/
theorem glyphs_yamlChars (m : Manifest) : glyphs m.yamlChars = .ok (place .start m.yamlChars) := by
  refine glyphs_of_shown ?_
  rw [yamlChars, List.all_append, all_fieldChars (by decide), Bool.true_and]
  split_ifs
  · decide
  · rw [List.all_append, List.all_flatMap, List.all_eq_true.mpr fun e _ ↦ all_entryChars e,
      Bool.and_true]
    decide

/-! ### Nodes -/

open Assembly Json Scanner

/-- A line as a field of a mapping. -/
def fieldNode (f : String × String) : Node × Node :=
  (.scalar none .plain f.1, .scalar none (writtenMark f.2) f.2)

def entryNode (e : Entry) : Node := .mapping none (e.fields.map fieldNode)

def rootNode (m : Manifest) : Node :=
  .mapping none [fieldNode ("version", m.version),
    (.scalar none .plain "modules", .sequence none (m.modules.map entryNode))]

variable {a : Assembly} {rest : List Token}

theorem run_field (ha : IsOpen a) (f : String × String) (before : List (Node × Node)) :
    (a.push (.mapping .block {} before .separator)).run (fieldTokens f ++ rest) =
      (a.push (.mapping .block {} (fieldNode f :: before) .separator)).run rest := by
  obtain ⟨handles, stack, props, root, anchors, anchored⟩ := a
  obtain ⟨rfl, rfl⟩ := ha
  rfl

/-- Lines are assembled to the fields of a mapping. -/
theorem run_fields (ha : IsOpen a) (fs : List (String × String)) (before : List (Node × Node)) :
    (a.push (.mapping .block {} before .separator)).run (fs.flatMap fieldTokens ++ rest) =
      (a.push (.mapping .block {} ((fs.map fieldNode).reverse ++ before) .separator)).run rest := by
  induction fs generalizing before with
  | nil => rfl
  | cons f fs ih =>
    rw [List.flatMap_cons, List.append_assoc, run_field ha, ih, List.map_cons, List.reverse_cons,
      List.append_assoc, List.singleton_append]

/-- An item of a list of modules is assembled to the node of the entry. -/
theorem run_entry (rest : List Token) (ha : IsOpen a) (e : Entry) (before : List Node) :
    (a.push (.sequence .loose {} before .item)).run
        (.blockMappingStart :: (e.fields.flatMap fieldTokens ++ .blockEnd :: rest)) =
      (a.push (.sequence .loose {} (entryNode e :: before) .separator)).run rest := by
  have hopen : (a.push (.sequence .loose {} before .item)).run
      (.blockMappingStart :: (e.fields.flatMap fieldTokens ++ .blockEnd :: rest)) =
        ((a.push (.sequence .loose {} before .item)).push (.mapping .block {} [] .separator)).run
          (e.fields.flatMap fieldTokens ++ .blockEnd :: rest) := by
    obtain ⟨handles, stack, props, root, anchors, anchored⟩ := a
    obtain ⟨rfl, rfl⟩ := ha
    rfl
  rw [hopen, run_fields (ha.push _), List.append_nil]
  obtain ⟨handles, stack, props, root, anchors, anchored⟩ := a
  obtain ⟨rfl, rfl⟩ := ha
  rfl

/-- The entries after the first one are assembled to the items of the list. -/
theorem run_entries (rest : List Token) (ha : IsOpen a) (es : List Entry) (before : List Node) :
    (a.push (.sequence .loose {} before .separator)).run (es.flatMap Entry.tokens ++ rest) =
      (a.push
        (.sequence .loose {} ((es.map entryNode).reverse ++ before) .separator)).run rest := by
  induction es generalizing before with
  | nil => rfl
  | cons e es ih =>
    have hdash (ts : List Token) :
        (a.push (.sequence .loose {} before .separator)).run (.blockEntry :: ts) =
          (a.push (.sequence .loose {} before .item)).run ts := by
      obtain ⟨handles, stack, props, root, anchors, anchored⟩ := a
      obtain ⟨rfl, rfl⟩ := ha
      rfl
    rw [List.flatMap_cons, Entry.tokens, List.append_assoc, List.cons_append, List.cons_append,
      List.append_assoc, List.singleton_append, hdash, run_entry _ ha, ih, List.map_cons,
      List.reverse_cons, List.append_assoc, List.singleton_append]

/-- The list of modules is assembled to a sequence of their nodes. -/
theorem run_modules (ha : IsOpen a) (modules : List Entry) (before : List (Node × Node)) :
    (a.push (.mapping .block {} before .separator)).run
        ([.key, .scalar .plain "modules", .value] ++ (moduleTokens modules ++ .blockEnd :: rest)) =
      (a.push (.mapping .block {}
        ((.scalar none .plain "modules", .sequence none (modules.map entryNode)) :: before)
          .separator)).run (.blockEnd :: rest) := by
  cases modules with
  | nil =>
    obtain ⟨handles, stack, props, root, anchors, anchored⟩ := a
    obtain ⟨rfl, rfl⟩ := ha
    rfl
  | cons e es =>
    let b := a.push (.mapping .block {} before (.value (.scalar none .plain "modules")))
    have hb : IsOpen b := ha.push _
    have hkey (ts : List Token) : (a.push (.mapping .block {} before .separator)).run
        (.key :: .scalar .plain "modules" :: .value :: .blockEntry :: ts) =
          (b.push (.sequence .loose {} [] .item)).run ts := by
      obtain ⟨handles, stack, props, root, anchors, anchored⟩ := a
      obtain ⟨rfl, rfl⟩ := ha
      rfl
    have hend (items : List Node) :
        (b.push (.sequence .loose {} items .separator)).run (.blockEnd :: rest) =
          (a.push (.mapping .block {}
            ((.scalar none .plain "modules", .sequence none items.reverse) :: before)
              .separator)).run (.blockEnd :: rest) := by
      obtain ⟨handles, stack, props, root, anchors, anchored⟩ := a
      obtain ⟨rfl, rfl⟩ := ha
      rfl
    have hentry := run_entry (es.flatMap Entry.tokens ++ .blockEnd :: rest) hb e []
    have hentries := run_entries (.blockEnd :: rest) hb es [entryNode e]
    rw [hend, List.reverse_append, List.reverse_reverse, List.reverse_singleton,
      List.singleton_append] at hentries
    rw [List.map_cons, ← hentries, ← hentry, ← hkey]
    simp [moduleTokens, Entry.tokens]

/-- The tokens of a written manifest are one document. -/
theorem ofTokens_tokens (m : Manifest) :
    Document.ofTokens m.tokens = .ok (some ⟨m.rootNode, {}, []⟩) := by
  let a := Assembly.start defaultHandles
  have ha : IsOpen a := ⟨rfl, rfl⟩
  have hopen (ts : List Token) : a.run (.blockMappingStart :: ts) =
      (a.push (.mapping .block {} [] .separator)).run ts := rfl
  have hclose (entries : List (Node × Node)) :
      (a.push (.mapping .block {} entries .separator)).run [.blockEnd, .streamEnd] =
        .ok ({ a with root := some (.mapping none entries.reverse) }, [.streamEnd]) := rfl
  have hrun : a.run m.tokens = .ok ({ a with root := some m.rootNode }, [.streamEnd]) := by
    rw [tokens, hopen, run_field ha, run_modules ha, hclose]
    rfl
  rw [tokens] at hrun
  rw [tokens, Json.ofTokens_of_opens (.inr rfl), hrun]
  rfl

theorem spellsRecord_entryNode (e : Entry) : SpellsRecord (entryNode e) e.fields :=
  ⟨none, _, rfl, List.forall₂_map_left_iff.mpr (List.forall₂_same.mpr fun _ _ ↦
    ⟨⟨none, .plain, rfl⟩, ⟨none, _, rfl⟩⟩)⟩

/-- The document of a written manifest is read as the manifest. -/
theorem ofNode_rootNode (d : Document) (m : Manifest) (count : Nat) :
    Manifest.ofNode d m.rootNode count = .ok (m, count) := by
  have hitems : List.Forall₂ (fun n e ↦ SpellsRecord n (Entry.fields e)) (m.modules.map entryNode)
      m.modules :=
    List.forall₂_map_left_iff.mpr (List.forall₂_same.mpr fun e _ ↦ spellsRecord_entryNode e)
  exact ofNode_eq (fun e ↦ .refl e.fields)
    (.cons ⟨⟨none, .plain, rfl⟩, rfl⟩ (.cons ⟨⟨none, .plain, rfl⟩, rfl⟩ .nil)) (.refl _)
    ⟨none, _, rfl⟩ hitems none count

/-- The octets of a written manifest are read as the manifest. -/
theorem ofOctets_render (m : Manifest) : Manifest.ofOctets (Text.octets m.render) = .ok m := by
  have hdocument : Document.ofOctets (Text.octets m.render) = .ok (some ⟨m.rootNode, {}, []⟩) := by
    rw [render, ofOctets_ofList, Document.ofChars, glyphs_yamlChars]
    show ((scan (place .start m.yamlChars)).bind Document.ofTokens) = _
    rw [scan_yamlChars]
    exact m.ofTokens_tokens
  rw [Manifest.ofOctets, hdocument]
  exact Reading.run_eq_ok (ofNode_rootNode _ m 0)

/-- A manifest is read from every file that holds its written form. -/
theorem load_render (d : Files.Disk) (path : String) (m : Manifest)
    (hfile : d.contents? path = .ok (some (Text.octets m.render))) : load d path = .ok m := by
  rw [load, hfile]
  show (ofOctets (Text.octets m.render)).mapError FileFailure.yaml = _
  rw [ofOctets_render]
  rfl

/-- A disk with one file in its root, the working directory. -/
def diskOfFile (name : String) (contents : Files.Octets) : Files.Disk :=
  ⟨.directory [(Text.encode name.toList, .file contents)], []⟩

/-- Texts that look like something else, that are empty, and that have several lines or a tab are
read back. -/
theorem load_render_styles :
    let m : Manifest := ⟨"1.0.0", [⟨"dns", "true", "a: b", "", "two\n lines\n\n", "tab\t"⟩]⟩
    let d := diskOfFile manifestFilename (Text.octets m.render)
    d.contents? manifestFilename = .ok (some (Text.octets m.render)) ∧
      load d manifestFilename = .ok m := by
  intro m d
  have hfile : d.contents? manifestFilename = .ok (some (Text.octets m.render)) := rfl
  exact ⟨hfile, load_render d manifestFilename m hfile⟩

end Manifest

end ApiManifest
