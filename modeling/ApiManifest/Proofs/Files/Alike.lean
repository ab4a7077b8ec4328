import ApiManifest.Proofs.Files.Plain

/-!
Disks that are told apart by the order in which directories list their names, if at all. A walk sees
the kinds of what it passes and no order, so that every path leads to the same place in both
(`resolve_of_kinds`), and reads the same. Where only some places are alike, a path that leads into a
directory in both leads to the same file there, whatever stands in other places (`resolve_join`).
-/

set_option autoImplicit false
set_option relaxedAutoImplicit false

namespace ApiManifest.Files

open ApiManifest.Path

/-- Views that are the same but for the order of the names in a directory. -/
inductive View.Alike : View → View → Prop
  | file (contents : Octets) : Alike (.file contents) (.file contents)
  | directory {names names' : List Name} (h : names.Perm names') :
      Alike (.directory names) (.directory names')
  | link (target : String) : Alike (.link target) (.link target)

theorem View.Alike.refl (v : View) : v.Alike v := by
  cases v with
  | file contents => exact .file contents
  | directory names => exact .directory (.refl names)
  | link target => exact .link target

theorem View.Alike.kind {v v' : View} (h : v.Alike v') : v'.kind = v.kind := by
  cases h <;> rfl

/-- Holds of two trees at a location where both show the same, but for the order of names. -/
def Tree.AlikeAt (t t' : Tree) (location : Location) : Prop :=
  Option.Rel View.Alike (t.view? location) (t'.view? location)

theorem Tree.alikeAt_of_view? {t t' : Tree} {location : Location}
    (h : t'.view? location = t.view? location) : t.AlikeAt t' location := by
  rw [AlikeAt, h]
  cases t.view? location with
  | none => exact .none
  | some v => exact .some (.refl v)

/-- An entry is found in whatever order the entries are. -/
theorem Tree.lookup_of_perm {entries entries' : List (Name × Tree)} (hperm : entries.Perm entries')
    (hdistinct : (entries.map Prod.fst).Nodup) (n : Name) :
    entries'.lookup n = entries.lookup n := by
  induction hperm with
  | nil => rfl
  | cons e _ ih =>
    obtain ⟨k, child⟩ := e
    rw [lookup_entry, lookup_entry, ih (List.nodup_cons.mp hdistinct).2]
  | swap e e' =>
    obtain ⟨k, child⟩ := e
    obtain ⟨k', child'⟩ := e'
    have hne : k' ≠ k := fun h ↦ (List.nodup_cons.mp hdistinct).1 (h ▸ List.mem_cons_self)
    simp only [lookup_entry]
    split_ifs with hk hk'
    · exact absurd (hk'.symm.trans hk) hne
    · rfl
    · rfl
    · rfl
  | trans h _ ih ih' => rw [ih' ((h.map _).nodup_iff.mp hdistinct), ih hdistinct]

/-- A directory that lists its entries in another order. -/
theorem Tree.alikeAt_of_perm {entries entries' : List (Name × Tree)} (hperm : entries.Perm entries')
    (hdistinct : (entries.map Prod.fst).Nodup) (location : Location) :
    (directory entries).AlikeAt (directory entries') location := by
  induction location using List.reverseRecOn with
  | nil => exact .some (.directory (hperm.map Prod.fst))
  | append_singleton location n _ =>
    have hview : (directory entries').view? (location ++ [n]) =
        (directory entries).view? (location ++ [n]) := by
      rw [view?_append_singleton, view?_append_singleton, child?, child?,
        lookup_of_perm hperm hdistinct]
    exact alikeAt_of_view? hview

variable {t t' : Tree} {aim : Aim} {location mid : Location} {n : Name} {path rest : List Step}
  {links : Nat} {cwd : Location} {p source : String}

theorem Tree.AlikeAt.kind? (h : t.AlikeAt t' location) : t'.kind? location = t.kind? location := by
  rw [Tree.kind?, Tree.kind?]
  rw [AlikeAt] at h
  generalize t.view? location = v at h
  generalize t'.view? location = v' at h
  cases h with
  | none => rfl
  | some h => exact congrArg some h.kind

/-! ### Walks -/

theorem stretch_of_kinds (hkinds : ∀ l, t'.kind? l = t.kind? l) :
    stretch t' aim location path = stretch t aim location path := by
  induction path generalizing location with
  | nil => rfl
  | cons step path ih =>
    rw [stretch_cons, stretch_cons]
    simp only [hkinds, ih]

theorem walk_of_kinds (hkinds : ∀ l, t'.kind? l = t.kind? l) :
    walk t' aim links location path = walk t aim links location path := by
  induction links generalizing location path with
  | zero =>
    rw [walk, walk, stretch_of_kinds hkinds]
  | succ links ih =>
    rw [walk, walk, stretch_of_kinds hkinds]
    simp only [ih]

/-- A path leads to the same place where the same kinds stand everywhere. -/
theorem resolve_of_kinds (hkinds : ∀ l, t'.kind? l = t.kind? l) :
    resolve t' aim cwd p = resolve t aim cwd p := by
  rw [resolve, resolve, walk_of_kinds hkinds]

/-! ### Paths into a directory -/

/-- Steps that follow others are taken from where these have led. -/
theorem stretch_append_of_found (h : stretch t .look location path = .ok (.done (.found mid))) :
    stretch t .look location (path ++ rest) = stretch t .look mid rest := by
  induction path generalizing location with
  | nil => rw [found_of_nil h, List.nil_append]
  | cons step path ih =>
    obtain ⟨hdir, hstep⟩ := advance_of_stretch h
    rw [List.cons_append, stretch_cons, if_pos hdir]
    cases hstep with
    | here h => exact ih h
    | slash h => exact ih h
    | up h => exact ih h
    | @enter _ _ _ k hn hkind hk h =>
      dsimp only
      rw [if_neg (by simp), if_neg (Nat.not_lt.mpr hn.short), hkind]
      cases k with
      | link target => exact absurd rfl (hk target)
      | file => exact ih h
      | directory => exact ih h

/-- Steps that follow others are left for later when these have led to a link. -/
theorem stretch_append_of_follow {parent : Location} {target : String} {left : List Step}
    (h : stretch t .look location path = .ok (.follow parent target left)) :
    stretch t .look location (path ++ rest) = .ok (.follow parent target (left ++ rest)) := by
  induction path generalizing location with
  | nil => exact nomatch h
  | cons step path ih =>
    obtain ⟨hdir, hstep⟩ := advance_of_stretch h
    rw [List.cons_append]
    refine stretch_of_advance hdir ?_
    cases hstep with
    | here h => exact .here (ih h)
    | slash h => exact .slash (ih h)
    | up h => exact .up (ih h)
    | enter hn hkind hk h => exact .enter (admits_look hn.short) hkind hk (ih h)
    | follow hn hkind => exact .follow (admits_look hn.short) hkind

/-- A walk goes on from where it has led, with the links that are left to it. -/
theorem walk_append (h : walk t .look links location path = .ok (.found mid)) :
    ∃ fewer, ∀ rest, walk t .look links location (path ++ rest) = walk t .look fewer mid rest := by
  induction links using Nat.strongRecOn generalizing location path with
  | ind links ih =>
    rcases walk_eq_ok_iff.mp h with h | ⟨fewer, parent, target, left, rfl, h, htarget, hwalk⟩
    · refine ⟨links, fun rest ↦ ?_⟩
      rw [walk.eq_def, walk.eq_def t .look links mid]
      dsimp only
      rw [stretch_append_of_found h]
    · obtain ⟨last, hlast⟩ := ih fewer (Nat.lt_succ_self _) hwalk
      refine ⟨last, fun rest ↦ ?_⟩
      rw [walk.eq_def]
      dsimp only
      rw [stretch_append_of_follow h]
      dsimp only
      rw [htarget, if_neg Bool.false_ne_true, ← List.append_assoc]
      exact hlast rest

/-- A slash after steps that lead somewhere asks for a directory and leads nowhere else. -/
theorem stretch_before_slash {s : Stretch}
    (h : stretch t .look location (path ++ [.slash]) = .ok s) :
    (∀ mid, s = .done (.found mid) → stretch t .look location path = .ok s) ∧
      ∀ parent target left, s = .follow parent target left → ∃ left', left = left' ++ [.slash] ∧
        stretch t .look location path = .ok (.follow parent target left') := by
  induction path generalizing location with
  | nil =>
    obtain ⟨hdir, hstep⟩ := advance_of_stretch h
    cases hstep with
    | slash h =>
      refine ⟨fun _ _ ↦ h, fun parent target left hs ↦ ?_⟩
      rw [hs] at h
      exact nomatch h
  | cons step path ih =>
    obtain ⟨hdir, hstep⟩ := advance_of_stretch h
    have hmore {location' : Location} (h : stretch t .look location' (path ++ [.slash]) = .ok s)
        (hadvance : ∀ s', stretch t .look location' path = .ok s' →
          Advance t .look location step path s') :
        (∀ mid, s = .done (.found mid) → stretch t .look location (step :: path) = .ok s) ∧
          ∀ parent target left, s = .follow parent target left →
            ∃ left', left = left' ++ [.slash] ∧
              stretch t .look location (step :: path) = .ok (.follow parent target left') := by
      obtain ⟨hfound, hfollow⟩ := ih h
      refine ⟨fun mid hs ↦ stretch_of_advance hdir (hadvance s (hfound mid hs)),
        fun parent target left hs ↦ ?_⟩
      obtain ⟨left', hleft, hpath⟩ := hfollow parent target left hs
      exact ⟨left', hleft, stretch_of_advance hdir (hadvance _ hpath)⟩
    cases hstep with
    | here h => exact hmore h fun _ ↦ .here
    | slash h => exact hmore h fun _ ↦ .slash
    | up h => exact hmore h fun _ ↦ .up
    | enter hn hkind hk h => exact hmore h fun _ ↦ .enter (admits_look hn.short) hkind hk
    | follow hn hkind =>
      refine ⟨fun mid ↦ (nomatch ·), fun parent target left hs ↦ ?_⟩
      obtain ⟨rfl, rfl, rfl⟩ := Stretch.follow.inj hs
      exact ⟨path, rfl, stretch_of_advance hdir (.follow (admits_look hn.short) hkind)⟩
    | missing => exact ⟨fun mid ↦ (nomatch ·), fun parent target left ↦ (nomatch ·)⟩

theorem walk_before_slash (h : walk t .look links location (path ++ [.slash]) = .ok (.found mid)) :
    walk t .look links location path = .ok (.found mid) := by
  induction links using Nat.strongRecOn generalizing location path with
  | ind links ih =>
    refine walk_eq_ok_iff.mpr ?_
    rcases walk_eq_ok_iff.mp h with h | ⟨fewer, parent, target, left, rfl, h, htarget, hwalk⟩
    · exact .inl ((stretch_before_slash h).1 mid rfl)
    · obtain ⟨left', rfl, hpath⟩ := (stretch_before_slash h).2 parent target left rfl
      rw [← List.append_assoc] at hwalk
      exact .inr ⟨fewer, parent, target, left', rfl, hpath, htarget,
        ih fewer (Nat.lt_succ_self _) hwalk⟩

/-- A path leads where it leads without the slash at its end. -/
theorem walk_segmentSteps (h : walk t .look links location (steps p) = .ok (.found mid)) :
    walk t .look links location (segmentSteps p) = .ok (.found mid) := by
  rw [steps, ← segmentSteps_eq] at h
  split_ifs at h
  · exact walk_before_slash h
  · exact h

namespace Disk

variable {d d' : Disk}

/-- A file name in a directory to which a path leads is taken up there, with what stands under it if
that is no link. -/
theorem resolve_join (hsource : d.locate source = some mid)
    (hdir : d.tree.kind? mid = some .directory) {s : String} (hs : IsName s)
    (hnul : '\x00' ∉ s.toList) (hlink : ∀ target,
      d.tree.kind? (Text.octets s :: mid) ≠ some (.link target)) :
    resolve d.tree .look d.cwd (join source s) =
      if pathLimit < (Text.octets (join source s)).length then .error .nameTooLong
      else if nameLimit < (Text.octets s).length then .error .nameTooLong
      else if (d.tree.kind? (Text.octets s :: mid)).isSome then
        .ok (.found (Text.octets s :: mid))
      else .ok (.missing mid (Text.octets s)) := by
  obtain ⟨hpath, hwalk⟩ := resolve_eq_ok_iff.mp (locate_eq_some_iff.mp hsource)
  have hrelative : isAbsolute s = false := hs.hasEnds.isAbsolute
  have hnul' : (join source s).toList.contains '\x00' = false := by
    rw [← Bool.not_eq_true, List.contains_iff_mem, mem_toList_join (by decide) hrelative, not_or,
      ← List.contains_iff_mem, hpath.noNul]
    exact ⟨Bool.false_ne_true, hnul⟩
  have hnonempty : (join source s).isEmpty = false := by
    obtain ⟨before, hjoin⟩ := exists_toList_join source hrelative
    rw [← Bool.not_eq_true, String.isEmpty_iff, ← String.toList_eq_nil_iff, hjoin,
      List.append_eq_nil_iff, String.toList_eq_nil_iff]
    exact fun h ↦ hs.nonempty h.2
  obtain ⟨fewer, hrest⟩ := walk_append (walk_segmentSteps hwalk)
  rw [resolve, hnul', hnonempty, if_neg Bool.false_ne_true, if_neg Bool.false_ne_true,
    steps_join hs.hasEnds, segmentSteps_of_isName hs, startOf_eq, isAbsolute_join hrelative,
    ← startOf_eq, hrest]
  refine if_congr Iff.rfl rfl ?_
  rw [walk.eq_def]
  dsimp only
  rw [stretch_cons, if_pos hdir]
  dsimp only
  rw [if_neg (by simp)]
  by_cases hlong : nameLimit < (Text.octets s).length
  · rw [if_pos hlong, if_pos hlong]
  · rw [if_neg hlong, if_neg hlong]
    cases hk : d.tree.kind? (Text.octets s :: mid) with
    | none => rfl
    | some k =>
      cases k with
      | link target => exact absurd hk (hlink target)
      | file => rfl
      | directory => rfl

/-- What shows where a path leads in both disks is the same, but for the order of names. -/
theorem node_alike (hresolve : resolve d'.tree .look d'.cwd p = resolve d.tree .look d.cwd p)
    (halike : ∀ l, d.locate p = some l → d.tree.AlikeAt d'.tree l) :
    (∃ cause, d.node p = .error cause ∧ d'.node p = .error cause) ∨
      ∃ node node', d.node p = .ok node ∧ d'.node p = .ok node' ∧ node.view.Alike node'.view := by
  rw [Disk.node, Disk.node, hresolve]
  cases hreached : resolve d.tree .look d.cwd p with
  | error cause => exact .inl ⟨cause, rfl, rfl⟩
  | ok reached =>
    cases reached with
    | missing parent n => exact .inl ⟨.notFound, rfl, rfl⟩
    | found l =>
      have hl := halike l (locate_eq_some_iff.mpr hreached)
      rw [Tree.AlikeAt, Tree.view?, Tree.view?] at hl
      dsimp only
      generalize d.tree.get? l = node at hl ⊢
      generalize d'.tree.get? l = node' at hl ⊢
      cases node with
      | none =>
        cases node' with
        | none => exact .inl ⟨.notFound, rfl, rfl⟩
        | some node' => cases hl
      | some node =>
        cases node' with
        | none => cases hl
        | some node' =>
          cases hl with
          | some hl => exact .inr ⟨node, node', rfl, rfl, hl⟩

theorem readText_of_alike
    (hresolve : resolve d'.tree .look d'.cwd p = resolve d.tree .look d.cwd p)
    (halike : ∀ l, d.locate p = some l → d.tree.AlikeAt d'.tree l) :
    d'.readText p = d.readText p := by
  have hread : d'.read p = d.read p := by
    rw [Disk.read, Disk.read]
    rcases node_alike hresolve halike with ⟨cause, h, h'⟩ | ⟨node, node', h, h', hview⟩
    · rw [h, h']
    · rw [h, h']
      cases node <;> cases node' <;> cases hview <;> rfl
  rw [Disk.readText, Disk.readText, hread]

theorem list_of_alike
    (hresolve : resolve d'.tree .look d'.cwd p = resolve d.tree .look d.cwd p)
    (halike : ∀ l, d.locate p = some l → d.tree.AlikeAt d'.tree l) :
    (∃ cause, d.list p = .error cause ∧ d'.list p = .error cause) ∨
      ∃ names names', d.list p = .ok names ∧ d'.list p = .ok names' ∧ names.Perm names' := by
  rw [Disk.list, Disk.list]
  rcases node_alike hresolve halike with ⟨cause, h, h'⟩ | ⟨node, node', h, h', hview⟩
  · exact .inl ⟨cause, by rw [h], by rw [h']⟩
  · rw [h, h']
    cases node with
    | file contents =>
      cases node' <;> cases hview
      exact .inl ⟨_, rfl, rfl⟩
    | link target =>
      cases node' <;> cases hview
      exact .inl ⟨_, rfl, rfl⟩
    | directory entries =>
      cases node' with
      | file contents => cases hview
      | link target => cases hview
      | directory entries' =>
        cases hview with
        | directory hperm => exact .inr ⟨_, _, rfl, rfl, hperm⟩

/-- Holds of two disks that show the same everywhere, but for the order of names. -/
structure Alike (d d' : Disk) : Prop where
  cwd : d'.cwd = d.cwd
  views : ∀ l, d.tree.AlikeAt d'.tree l

theorem Alike.resolve (h : d.Alike d') (p : String) :
    resolve d'.tree .look d'.cwd p = resolve d.tree .look d.cwd p := by
  rw [h.cwd]
  exact resolve_of_kinds fun l ↦ (h.views l).kind?

end Disk

end ApiManifest.Files
