import ApiManifest.Proofs.Files.View

/-!
Where paths lead. A walk depends on the kind of what stands at each location and on nothing else
(`stretch_cons`), so it leads to the same place in every tree that keeps what is there
(`walk_of_extends`). A path on which a name is missing leads to that name once a file stands under
it (`walk_of_missing`).
-/

set_option autoImplicit false
set_option relaxedAutoImplicit false

namespace ApiManifest.Files

/-- What a walk sees of a node. -/
inductive Kind where
  | file
  | directory
  | link (target : String)
  deriving DecidableEq

def View.kind : View → Kind
  | file _ => .file
  | directory _ => .directory
  | link target => .link target

/-- The kind of what stands at a location. -/
def Tree.kind? (t : Tree) (location : Location) : Option Kind := (t.view? location).map View.kind

/-- One tree keeps what stands in another. -/
def Tree.Extends (t t' : Tree) : Prop := ∀ location k, t.kind? location = some k →
  t'.kind? location = some k

variable {t t' : Tree} {aim : Aim} {location parent : Location} {n : Name} {path : List Step}

theorem Tree.Extends.trans {t'' : Tree} (h : t.Extends t') (h' : t'.Extends t'') :
    t.Extends t'' := fun location k hk ↦ h' location k (h location k hk)

theorem Tree.kind?_eq_directory_iff :
    t.kind? location = some .directory ↔ ∃ names, t.view? location = some (.directory names) := by
  rw [kind?]
  cases t.view? location with
  | none => simp
  | some v => cases v <;> simp [View.kind]

/-- What stands in a place stands in a directory. -/
theorem Tree.kind?_of_cons {k : Kind} (h : t.kind? (n :: location) = some k) :
    t.kind? location = some .directory := by
  obtain ⟨v, hv, -⟩ := Option.map_eq_some_iff.mp h
  obtain ⟨names, hnames, -⟩ := exists_of_view?_cons hv
  rw [kind?, hnames]
  rfl

/-- A step of a walk, by the kinds of what it sees. -/
theorem stretch_cons (t : Tree) (aim : Aim) (location : Location) (step : Step)
    (rest : List Step) :
    stretch t aim location (step :: rest) =
      if t.kind? location = some .directory then
        match step with
        | .here | .slash => stretch t aim location rest
        | .up => stretch t aim location.tail rest
        | .name n =>
          if aim = .make ∧ rest ≠ [] ∧ atEnd rest then .error .isDirectory
          else if nameLimit < n.length then .error .nameTooLong
          else match t.kind? (n :: location) with
            | some (.link target) => .ok (.follow location target rest)
            | some _ => stretch t aim (n :: location) rest
            | none => if atEnd rest then .ok (.done (.missing location n)) else .error .notFound
      else .error .notDirectory := by
  have hkind : t.kind? location = (t.get? location).map fun node ↦ node.view.kind := by
    rw [Tree.kind?, Tree.view?, Option.map_map]
    rfl
  rw [stretch, hkind]
  cases hnode : t.get? location with
  | none => rfl
  | some node =>
    cases node with
    | file contents => rfl
    | link target => rfl
    | directory entries =>
      have hchild (n : Name) : t.kind? (n :: location) =
          (entries.lookup n).map fun node ↦ node.view.kind := by
        rw [Tree.kind?, Tree.view?, Tree.get?_cons, hnode, Option.map_map]
        rfl
      rw [Option.map_some, if_pos (by rfl)]
      cases step with
      | name n =>
        simp only [hchild]
        cases entries.lookup n with
        | none => rfl
        | some child => cases child <;> rfl
      | here => rfl
      | up => rfl
      | slash => rfl

/-- Whether a name can be taken up with the given steps after it: it is not too long, and a name at
which a file is to be made has no slash after it. -/
structure Admits (aim : Aim) (n : Name) (rest : List Step) : Prop where
  short : n.length ≤ nameLimit
  plain : ¬ (aim = .make ∧ rest ≠ [] ∧ atEnd rest = true)

/-- Nothing but the length of a name matters to a look. -/
theorem admits_look (hn : n.length ≤ nameLimit) : Admits .look n path :=
  ⟨hn, fun h ↦ absurd h.1 (by decide)⟩

/-- What the first step does: it stays, goes up, enters what stands under a name, comes to a link,
or to a name that is missing. -/
inductive Advance (t : Tree) (aim : Aim) (location : Location) :
    Step → List Step → Stretch → Prop
  | here {rest s} (h : stretch t aim location rest = .ok s) : Advance t aim location .here rest s
  | slash {rest s} (h : stretch t aim location rest = .ok s) : Advance t aim location .slash rest s
  | up {rest s} (h : stretch t aim location.tail rest = .ok s) : Advance t aim location .up rest s
  | enter {n rest s k} (hn : Admits aim n rest) (hkind : t.kind? (n :: location) = some k)
      (hk : ∀ target, k ≠ .link target) (h : stretch t aim (n :: location) rest = .ok s) :
      Advance t aim location (.name n) rest s
  | follow {n rest target} (hn : Admits aim n rest)
      (hkind : t.kind? (n :: location) = some (.link target)) :
      Advance t aim location (.name n) rest (.follow location target rest)
  | missing {n rest} (hn : Admits aim n rest) (hkind : t.kind? (n :: location) = none)
      (hend : atEnd rest = true) :
      Advance t aim location (.name n) rest (.done (.missing location n))

theorem stretch_of_advance {step : Step} {s : Stretch} (hdir : t.kind? location = some .directory)
    (h : Advance t aim location step path s) : stretch t aim location (step :: path) = .ok s := by
  rw [stretch_cons, if_pos hdir]
  cases h with
  | here h => exact h
  | slash h => exact h
  | up h => exact h
  | enter hn hkind hk h =>
    rename_i k
    dsimp only
    rw [if_neg hn.plain, if_neg (Nat.not_lt.mpr hn.short), hkind]
    cases k with
    | link target => exact absurd rfl (hk target)
    | file => exact h
    | directory => exact h
  | follow hn hkind =>
    dsimp only
    rw [if_neg hn.plain, if_neg (Nat.not_lt.mpr hn.short), hkind]
  | missing hn hkind hend =>
    dsimp only
    rw [if_neg hn.plain, if_neg (Nat.not_lt.mpr hn.short), hkind]
    exact if_pos hend

theorem advance_of_stretch {step : Step} {s : Stretch}
    (h : stretch t aim location (step :: path) = .ok s) :
    t.kind? location = some .directory ∧ Advance t aim location step path s := by
  rw [stretch_cons] at h
  by_cases hdir : t.kind? location = some .directory
  · rw [if_pos hdir] at h
    refine ⟨hdir, ?_⟩
    cases step with
    | here => exact .here h
    | slash => exact .slash h
    | up => exact .up h
    | name n =>
      dsimp only at h
      by_cases hplain : aim = .make ∧ path ≠ [] ∧ atEnd path = true
      · exact absurd h (by rw [if_pos hplain]; simp)
      by_cases hlong : nameLimit < n.length
      · exact absurd h (by rw [if_neg hplain, if_pos hlong]; simp)
      have hn : Admits aim n path := ⟨Nat.not_lt.mp hlong, hplain⟩
      rw [if_neg hplain, if_neg hlong] at h
      cases hkind : t.kind? (n :: location) with
      | none =>
        rw [hkind] at h
        dsimp only at h
        split_ifs at h with hend
        rw [← Except.ok.inj h]
        exact .missing hn hkind hend
      | some k =>
        rw [hkind] at h
        cases k with
        | link target =>
          rw [← Except.ok.inj h]
          exact .follow hn hkind
        | file => exact .enter hn hkind (by simp) h
        | directory => exact .enter hn hkind (by simp) h
  · exact absurd h (by rw [if_neg hdir]; simp)

/-! ### Trees that keep what is there -/

/-- Steps that do not end at a missing name lead to the same place in a tree that keeps what is
there. -/
theorem stretch_of_extends (hext : t.Extends t') {s : Stretch}
    (h : stretch t aim location path = .ok s) (hs : ∀ parent n, s ≠ .done (.missing parent n)) :
    stretch t' aim location path = .ok s := by
  induction path generalizing location with
  | nil => exact h
  | cons step rest ih =>
    obtain ⟨hdir, hstep⟩ := advance_of_stretch h
    refine stretch_of_advance (hext _ _ hdir) ?_
    cases hstep with
    | here h => exact .here (ih h)
    | slash h => exact .slash (ih h)
    | up h => exact .up (ih h)
    | enter hn hkind hk h => exact .enter hn (hext _ _ hkind) hk (ih h)
    | follow hn hkind => exact .follow hn (hext _ _ hkind)
    | missing => exact absurd rfl (hs _ _)

/-- What can be reached to make a file can be reached to look at it. -/
theorem stretch_look_of_make {s : Stretch} (h : stretch t .make location path = .ok s) :
    stretch t .look location path = .ok s := by
  induction path generalizing location with
  | nil => exact h
  | cons step rest ih =>
    obtain ⟨hdir, hstep⟩ := advance_of_stretch h
    refine stretch_of_advance hdir ?_
    cases hstep with
    | here h => exact .here (ih h)
    | slash h => exact .slash (ih h)
    | up h => exact .up (ih h)
    | enter hn hkind hk h => exact .enter (admits_look hn.short) hkind hk (ih h)
    | follow hn hkind => exact .follow (admits_look hn.short) hkind
    | missing hn hkind hend => exact .missing (admits_look hn.short) hkind hend

/-- A name that is missing is missing in a directory, and a file can be made there: once it stands,
the steps lead to it. -/
theorem stretch_of_missing (h : stretch t .make location path = .ok (.done (.missing parent n))) :
    t.kind? parent = some .directory ∧ t.kind? (n :: parent) = none ∧
      ∀ t', t.Extends t' → t'.kind? (n :: parent) = some .file →
        stretch t' .look location path = .ok (.done (.found (n :: parent))) := by
  induction path generalizing location with
  | nil => exact absurd h (by simp [stretch])
  | cons step rest ih =>
    obtain ⟨hdir, hstep⟩ := advance_of_stretch h
    have hmore {location' : Location}
        (h : stretch t .make location' rest = .ok (.done (.missing parent n)))
        (hadvance : ∀ t', t.Extends t' →
          stretch t' .look location' rest = .ok (.done (.found (n :: parent))) →
          Advance t' .look location step rest (.done (.found (n :: parent)))) :
        t.kind? parent = some .directory ∧ t.kind? (n :: parent) = none ∧
          ∀ t', t.Extends t' → t'.kind? (n :: parent) = some .file →
            stretch t' .look location (step :: rest) = .ok (.done (.found (n :: parent))) := by
      obtain ⟨hparent, hnone, hthere⟩ := ih h
      exact ⟨hparent, hnone, fun t' hext hfile ↦
        stretch_of_advance (hext _ _ hdir) (hadvance t' hext (hthere t' hext hfile))⟩
    cases hstep with
    | here h => exact hmore h fun _ _ ↦ .here
    | slash h => exact hmore h fun _ _ ↦ .slash
    | up h => exact hmore h fun _ _ ↦ .up
    | enter hn hkind hk h =>
      exact hmore h fun _ hext ↦
        .enter (admits_look hn.short) (hext _ _ hkind) hk
    | missing hn hkind hend =>
      refine ⟨hdir, hkind, fun t' hext hfile ↦ stretch_of_advance (hext _ _ hdir) ?_⟩
      have hrest : rest = [] := by
        by_contra hne
        exact hn.plain ⟨rfl, hne, hend⟩
      subst hrest
      exact .enter (admits_look hn.short) hfile (by simp) rfl

/-! ### Walks through links -/

/-- How a walk goes on: it is done, or it follows a link. -/
theorem walk_eq_ok_iff {links : Nat} {r : Reached} :
    walk t aim links location path = .ok r ↔
      stretch t aim location path = .ok (.done r) ∨
        ∃ fewer parent target rest, links = fewer + 1 ∧
          stretch t aim location path = .ok (.follow parent target rest) ∧
          target.isEmpty = false ∧
          walk t aim fewer (startOf parent target) (steps target ++ rest) = .ok r := by
  rw [walk.eq_def]
  dsimp only
  generalize stretch t aim location path = reached
  cases reached with
  | error cause => simp
  | ok s =>
    cases s with
    | done reached => simp
    | follow parent target rest =>
      cases links with
      | zero => simp
      | succ fewer => cases htarget : target.isEmpty <;> simp_all

/-- A walk leads to the same place in a tree that keeps what is there. -/
theorem walk_of_extends (hext : t.Extends t') {links : Nat} {found : Location}
    (h : walk t aim links location path = .ok (.found found)) :
    walk t' aim links location path = .ok (.found found) := by
  induction links using Nat.strongRecOn generalizing location path with
  | ind links ih =>
    refine walk_eq_ok_iff.mpr ?_
    rcases walk_eq_ok_iff.mp h with h | ⟨fewer, parent, target, rest, rfl, h, htarget, hwalk⟩
    · exact .inl (stretch_of_extends hext h (by simp))
    · exact .inr ⟨fewer, parent, target, rest, rfl, stretch_of_extends hext h (by simp), htarget,
        ih fewer (Nat.lt_succ_self _) hwalk⟩

theorem walk_look_of_make {links : Nat} {r : Reached}
    (h : walk t .make links location path = .ok r) : walk t .look links location path = .ok r := by
  induction links using Nat.strongRecOn generalizing location path with
  | ind links ih =>
    refine walk_eq_ok_iff.mpr ?_
    rcases walk_eq_ok_iff.mp h with h | ⟨fewer, parent, target, rest, rfl, h, htarget, hwalk⟩
    · exact .inl (stretch_look_of_make h)
    · exact .inr ⟨fewer, parent, target, rest, rfl, stretch_look_of_make h, htarget,
        ih fewer (Nat.lt_succ_self _) hwalk⟩

theorem walk_of_missing {links : Nat}
    (h : walk t .make links location path = .ok (.missing parent n)) :
    t.kind? parent = some .directory ∧ t.kind? (n :: parent) = none ∧
      ∀ t', t.Extends t' → t'.kind? (n :: parent) = some .file →
        walk t' .look links location path = .ok (.found (n :: parent)) := by
  induction links using Nat.strongRecOn generalizing location path with
  | ind links ih =>
    rcases walk_eq_ok_iff.mp h with h | ⟨fewer, parent', target, rest, rfl, h, htarget, hwalk⟩
    · obtain ⟨hparent, hnone, hthere⟩ := stretch_of_missing h
      exact ⟨hparent, hnone, fun t' hext hfile ↦ walk_eq_ok_iff.mpr (.inl (hthere t' hext hfile))⟩
    · obtain ⟨hparent, hnone, hthere⟩ := ih fewer (Nat.lt_succ_self _) hwalk
      have hfollow {t' : Tree} (hext : t.Extends t') :
          stretch t' .look location path = .ok (.follow parent' target rest) :=
        stretch_of_extends hext (stretch_look_of_make h) (by simp)
      exact ⟨hparent, hnone, fun t' hext hfile ↦ walk_eq_ok_iff.mpr
        (.inr ⟨fewer, parent', target, rest, rfl, hfollow hext, htarget, hthere t' hext hfile⟩)⟩

end ApiManifest.Files
