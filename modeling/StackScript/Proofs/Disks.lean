import StackScript.Files.Disk
import StackScript.Proofs.Basics
import StackScript.Proofs.Paths

/-!
# What stands on a disk

A disk as a map from places to what stands there: nothing, a directory, or a file with its bytes
(`Disk.kind?`). Putting a file or an empty directory into a directory changes the map at that place
only (`Entry.kind?_put`). Paths are followed along directories (`Walks`), so a path that leads
somewhere leads to where its components point (`Walks.eq_follow`), and still does when the disk has
grown (`Walks.mono`).
-/

namespace StackScript.Files

open StackScript.Text

/-! ## Trees as maps -/

/-- What stands at a place. -/
inductive Kind where
  | file (bytes : List UInt8)
  | dir
  deriving DecidableEq

namespace Entry

/-- What an entry is, whatever it holds. -/
def kind : Entry → Kind
  | file bytes => .file bytes
  | dir _ => .dir

/-- What stands where names lead, downwards. -/
def kind? (entry : Entry) (names : List String) : Option Kind := (entry.at? names).map kind

@[simp] theorem kind?_nil (entry : Entry) : entry.kind? [] = some entry.kind := rfl

theorem kind?_cons (entry : Entry) (name : String) (names : List String) :
    entry.kind? (name :: names) = (entry.children.lookup name).bind (·.kind? names) := by
  rw [kind?, at?]
  cases entry.children.lookup name with
  | none => rfl
  | some child => rfl

/-- What is found along two lists of names is found along the second from where the first leads. -/
theorem at?_append (entry : Entry) (front names : List String) :
    entry.at? (front ++ names) = (entry.at? front).bind (·.at? names) := by
  induction front generalizing entry with
  | nil => rfl
  | cons name front ih =>
    rw [List.cons_append, at?, at?]
    cases entry.children.lookup name with
    | none => rfl
    | some child => exact ih child

theorem kind?_append (entry : Entry) (front names : List String) :
    entry.kind? (front ++ names) = (entry.at? front).bind (·.kind? names) := by
  rw [kind?, at?_append, Option.map_bind]
  rfl

/-- Something stands below directories only. -/
theorem kind?_eq_dir_of_below {entry : Entry} {front : List String} {name : String}
    {names : List String} (h : entry.kind? (front ++ name :: names) ≠ none) :
    entry.kind? front = some .dir := by
  rw [kind?_append] at h
  rw [kind?]
  cases hat : entry.at? front with
  | none => exact absurd (by rw [hat]; rfl) h
  | some found =>
    cases found with
    | dir children => rfl
    | file bytes => exact absurd (by rw [hat]; rfl) h

/-- Putting a child changes what its name stands for, and no other name. -/
theorem lookup_putChild (name other : String) (child : Entry) (children : List (String × Entry)) :
    (putChild name child children).lookup other =
      if other = name then some child else children.lookup other := by
  induction children with
  | nil =>
    by_cases h : other = name
    · simp [putChild, h]
    · simp [putChild, h, List.lookup_cons, beq_eq_false_iff_ne.mpr h]
  | cons first rest ih =>
    obtain ⟨key, old⟩ := first
    rw [putChild]
    by_cases hkey : key = name
    · subst hkey
      by_cases h : other = key
      · simp [h]
      · simp [h, List.lookup_cons, beq_eq_false_iff_ne.mpr h]
    · rw [if_neg hkey, List.lookup_cons, List.lookup_cons, ih]
      by_cases h : other = name
      · have hne : (name == key) = false := beq_eq_false_iff_ne.mpr (Ne.symm hkey)
        simp [h, hne]
      · simp [h]

/-- A file or an empty directory that is put into a directory, where no directory was, stands there,
and all else is as before. -/
theorem kind?_put {leaf : Entry} (hleaf : leaf.children = []) {entry : Entry} {place : List String}
    {name : String} (hdir : entry.kind? place = some .dir)
    (hfree : entry.kind? (place ++ [name]) ≠ some .dir) (other : List String) :
    (put leaf (place ++ [name]) entry).kind? other =
      if other = place ++ [name] then some leaf.kind else entry.kind? other := by
  have hbelow : ∀ n ns, leaf.kind? (n :: ns) = none := by
    intro n ns
    rw [kind?_cons, hleaf]
    rfl
  induction place generalizing entry other with
  | nil =>
    rw [List.nil_append] at hfree ⊢
    rw [put]
    cases other with
    | nil => simpa [kind] using hdir.symm
    | cons n ns =>
      rw [kind?_cons, children, lookup_putChild]
      by_cases hname : n = name
      · rw [if_pos hname, hname, put]
        cases ns with
        | nil => simp
        | cons m ms =>
          -- nothing stands below what was there before
          have hnone : entry.kind? ([name] ++ m :: ms) = none := by
            cases hkind : entry.kind? ([name] ++ m :: ms) with
            | none => rfl
            | some kind =>
              apply absurd _ hfree
              exact kind?_eq_dir_of_below (hkind ▸ Option.some_ne_none kind)
          rw [List.singleton_append] at hnone
          simp [hbelow, hnone]
      · rw [if_neg hname, kind?_cons, if_neg]
        intro heq
        cases heq
        exact hname rfl
  | cons first rest ih =>
    have hchild : ∃ child, entry.children.lookup first = some child ∧
        child.kind? rest = some .dir := by
      rw [kind?_cons] at hdir
      exact Option.bind_eq_some_iff.mp hdir
    obtain ⟨child, hlookup, hchild⟩ := hchild
    have hkind : ∀ names, entry.kind? (first :: names) = child.kind? names := by
      intro names
      rw [kind?_cons, hlookup]
      rfl
    rw [List.cons_append] at hfree ⊢
    rw [hkind] at hfree
    rw [put, hlookup, Option.getD_some]
    cases other with
    | nil =>
      have hentry : entry.kind? [] = some .dir := by
        have hsome : entry.kind? ([] ++ first :: rest) ≠ none := by
          rw [List.nil_append, hdir]
          exact Option.some_ne_none _
        exact kind?_eq_dir_of_below hsome
      rw [hentry]
      simp [kind]
    | cons n ns =>
      rw [kind?_cons, children, lookup_putChild]
      by_cases hname : n = first
      · rw [if_pos hname, hname, Option.bind_some, ih hchild hfree, hkind]
        simp
      · rw [if_neg hname, kind?_cons, if_neg]
        intro heq
        cases heq
        exact hname rfl

end Entry

/-! ## Disks as maps -/

namespace Disk

/-- What stands at a place of a disk. -/
def kind? (disk : Disk) (place : List String) : Option Kind := disk.root.kind? place

/-- Where something is below a place, the place is a directory. -/
theorem kind?_eq_dir_of_below {disk : Disk} {front : List String} {name : String}
    {names : List String} (h : disk.kind? (front ++ name :: names) ≠ none) :
    disk.kind? front = some .dir := Entry.kind?_eq_dir_of_below h

theorem kind?_eq_dir_iff {disk : Disk} {place : List String} :
    disk.kind? place = some .dir ↔ ∃ children, disk.root.at? place = some (.dir children) := by
  rw [kind?, Entry.kind?]
  cases disk.root.at? place with
  | none => simp
  | some entry => cases entry <;> simp [Entry.kind]

theorem kind?_eq_file_iff {disk : Disk} {place : List String} {bytes : List UInt8} :
    disk.kind? place = some (.file bytes) ↔ disk.root.at? place = some (.file bytes) := by
  rw [kind?, Entry.kind?]
  cases disk.root.at? place with
  | none => simp
  | some entry => cases entry <;> simp [Entry.kind]

theorem isSome_at? {disk : Disk} {place : List String} :
    (disk.root.at? place).isSome = true ↔ disk.kind? place ≠ none := by
  rw [kind?, Entry.kind?, Ne, Option.map_eq_none_iff, Option.isSome_iff_ne_none]

/-- The later disk has all that the earlier one has. -/
structure Extends (before after : Disk) : Prop where
  here : after.here = before.here
  kind : ∀ place kind, before.kind? place = some kind → after.kind? place = some kind

/-- The later disk has all that the earlier one has, and for the rest only directories. -/
structure Grown (before after : Disk) : Prop extends Extends before after where
  fresh : ∀ place, before.kind? place = none →
    after.kind? place = none ∨ after.kind? place = some .dir

theorem Extends.refl (disk : Disk) : Extends disk disk := ⟨rfl, fun _ _ h => h⟩

theorem Extends.trans {a b c : Disk} (hab : Extends a b) (hbc : Extends b c) : Extends a c where
  here := hbc.here.trans hab.here
  kind place kind h := hbc.kind place kind (hab.kind place kind h)

theorem Grown.refl (disk : Disk) : Grown disk disk := ⟨.refl disk, fun _ h => .inl h⟩

theorem Grown.trans {a b c : Disk} (hab : Grown a b) (hbc : Grown b c) : Grown a c where
  toExtends := hab.toExtends.trans hbc.toExtends
  fresh := by
    intro place hplace
    rcases hab.fresh place hplace with h | h
    · exact hbc.fresh place h
    · exact .inr (hbc.kind place _ h)

/-- Files stay as they are when a disk grows. -/
theorem Grown.file_iff {before after : Disk} (h : Grown before after) {place : List String}
    {bytes : List UInt8} :
    after.kind? place = some (.file bytes) ↔ before.kind? place = some (.file bytes) := by
  constructor
  · intro hafter
    cases hbefore : before.kind? place with
    | none =>
      rcases h.fresh place hbefore with hnone | hdir
      · rw [hnone] at hafter
        cases hafter
      · rw [hdir] at hafter
        cases hafter
    | some kind =>
      rw [h.kind place kind hbefore] at hafter
      exact hafter
  · exact h.kind place _

/-! ## Following paths -/

/-- The components lead from one place to another, each but the last to a directory. -/
inductive Walks (disk : Disk) : List String → List String → List String → Prop where
  | nil (place : List String) : Walks disk place [] place
  | idle {place last : List String} {part : String} {parts : List String}
    (hdir : disk.kind? place = some .dir) (hidle : IsIdle part)
    (hrest : Walks disk place parts last) : Walks disk place (part :: parts) last
  | up {place last : List String} {parts : List String} (hdir : disk.kind? place = some .dir)
    (hrest : Walks disk place.dropLast parts last) : Walks disk place (".." :: parts) last
  | down {place last : List String} {part : String} {parts : List String}
    (hdir : disk.kind? place = some .dir) (hname : IsName part)
    (hthere : disk.kind? (place ++ [part]) ≠ none)
    (hrest : Walks disk (place ++ [part]) parts last) : Walks disk place (part :: parts) last

/-- One step along a path, by what stands where it starts and where it leads. -/
theorem walk_cons (disk : Disk) (place : List String) (part : String) (parts : List String) :
    disk.walk place (part :: parts) =
      match disk.kind? place with
      | none => .error .missing
      | some (.file _) => .error .notDirectory
      | some .dir =>
        if IsIdle part then disk.walk place parts
        else if part = ".." then disk.walk place.dropLast parts
        else if disk.kind? (place ++ [part]) = none then .error .missing
        else disk.walk (place ++ [part]) parts := by
  have hchild : disk.kind? (place ++ [part]) =
      (disk.root.at? place).bind fun entry => (entry.children.lookup part).map Entry.kind := by
    rw [kind?, Entry.kind?_append]
    cases disk.root.at? place with
    | none => rfl
    | some entry =>
      rw [Option.bind_some, Option.bind_some, Entry.kind?_cons]
      cases entry.children.lookup part with
      | none => rfl
      | some child => rfl
  rw [walk, hchild, kind?, Entry.kind?]
  cases disk.root.at? place with
  | none => rfl
  | some entry =>
    cases entry with
    | file bytes => rfl
    | dir children =>
      cases hlookup : children.lookup part with
      | none => simp [Entry.kind, Entry.children, hlookup]
      | some child => simp [Entry.kind, Entry.children, hlookup]

/-- A path is walked exactly where each of its steps leads to something. -/
theorem walk_eq_ok {disk : Disk} {place last parts : List String} :
    disk.walk place parts = .ok last ↔ disk.Walks place parts last := by
  constructor
  · intro h
    induction parts generalizing place with
    | nil =>
      cases h
      exact .nil _
    | cons part parts ih =>
      rw [walk_cons] at h
      split at h
      · cases h
      · cases h
      · rename_i hdir
        split at h
        · rename_i hidle
          exact .idle hdir hidle (ih h)
        · rename_i hactive
          split at h
          · rename_i hup
            subst hup
            exact .up hdir (ih h)
          · rename_i hname
            split at h
            · cases h
            · rename_i hthere
              exact .down hdir ⟨hactive, hname⟩ hthere (ih h)
  · intro h
    induction h with
    | nil place => rfl
    | idle hdir hidle _ ih =>
      rw [walk_cons, hdir]
      simp only [if_pos hidle, ih]
    | up hdir _ ih =>
      have hactive : ¬ IsIdle ".." := by decide
      rw [walk_cons, hdir]
      simp only [if_neg hactive, if_true, ih]
    | down hdir hname hthere _ ih =>
      rw [walk_cons, hdir]
      simp only [if_neg hname.active, if_neg hname.notUp, if_neg hthere, ih]

namespace Walks

variable {disk : Disk} {place last parts : List String}

/-- Two walks, one behind the other, are one walk. -/
theorem append {between more : List String} (h : disk.Walks place parts between)
    (hmore : disk.Walks between more last) : disk.Walks place (parts ++ more) last := by
  induction h with
  | nil place => exact hmore
  | idle hdir hidle _ ih => exact .idle hdir hidle (ih hmore)
  | up hdir _ ih => exact .up hdir (ih hmore)
  | down hdir hname hthere _ ih => exact .down hdir hname hthere (ih hmore)

theorem of_append {more : List String} (h : disk.Walks place (parts ++ more) last) :
    ∃ between, disk.Walks place parts between ∧ disk.Walks between more last := by
  induction parts generalizing place with
  | nil => exact ⟨place, .nil place, h⟩
  | cons part parts ih =>
    cases h with
    | idle hdir hidle hrest =>
      obtain ⟨between, hfirst, hsecond⟩ := ih hrest
      exact ⟨between, .idle hdir hidle hfirst, hsecond⟩
    | up hdir hrest =>
      obtain ⟨between, hfirst, hsecond⟩ := ih hrest
      exact ⟨between, .up hdir hfirst, hsecond⟩
    | down hdir hname hthere hrest =>
      obtain ⟨between, hfirst, hsecond⟩ := ih hrest
      exact ⟨between, .down hdir hname hthere hfirst, hsecond⟩

/-- A path leads to the same place on a disk that has more. -/
theorem mono {after : Disk} (h : disk.Walks place parts last) (hext : Extends disk after) :
    after.Walks place parts last := by
  induction h with
  | nil place => exact .nil place
  | idle hdir hidle _ ih => exact .idle (hext.kind _ _ hdir) hidle ih
  | up hdir _ ih => exact .up (hext.kind _ _ hdir) ih
  | down hdir hname hthere _ ih =>
    obtain ⟨kind, hkind⟩ := Option.ne_none_iff_exists'.mp hthere
    refine .down (hext.kind _ _ hdir) hname ?_ ih
    rw [hext.kind _ _ hkind]
    exact Option.some_ne_none kind

/-- Where a path leads on a grown disk, it led before, or to nothing. -/
theorem before {earlier : Disk} (h : disk.Walks place parts last) (hgrown : Grown earlier disk) :
    earlier.walk place parts = .ok last ∨ earlier.walk place parts = .error .missing := by
  have hdirs : ∀ {p : List String}, disk.kind? p = some .dir →
      earlier.kind? p = none ∨ earlier.kind? p = some .dir := by
    intro p hp
    cases hkind : earlier.kind? p with
    | none => exact .inl rfl
    | some kind =>
      rw [hgrown.kind p kind hkind] at hp
      exact .inr hp
  induction h with
  | nil place => exact .inl rfl
  | idle hdir hidle _ ih =>
    rw [walk_cons]
    rcases hdirs hdir with hnone | hdir
    · rw [hnone]
      exact .inr rfl
    · rw [hdir]
      simpa only [if_pos hidle] using ih
  | up hdir _ ih =>
    have hactive : ¬ IsIdle ".." := by decide
    rw [walk_cons]
    rcases hdirs hdir with hnone | hdir
    · rw [hnone]
      exact .inr rfl
    · rw [hdir]
      simpa only [if_neg hactive, if_true] using ih
  | @down place _ part _ hdir hname _ _ ih =>
    rw [walk_cons]
    rcases hdirs hdir with hnone | hdir
    · rw [hnone]
      exact .inr rfl
    · rw [hdir]
      simp only [if_neg hname.active, if_neg hname.notUp]
      split
      · exact .inr rfl
      · exact ih

/-- Names lead down to what stands below a place. -/
theorem of_names {names : List String} (h : ∀ name ∈ names, IsName name)
    (hthere : disk.kind? (place ++ names) ≠ none) : disk.Walks place names (place ++ names) := by
  induction names generalizing place with
  | nil =>
    rw [List.append_nil]
    exact .nil place
  | cons name names ih =>
    obtain ⟨hname, hrest⟩ := List.forall_mem_cons.mp h
    have hnext : disk.kind? (place ++ [name]) ≠ none := by
      cases names with
      | nil => exact hthere
      | cons second names =>
        rw [List.append_cons] at hthere
        rw [kind?, Entry.kind?_eq_dir_of_below hthere]
        exact Option.some_ne_none _
    have hdir := Entry.kind?_eq_dir_of_below hthere
    rw [List.append_cons] at hthere ⊢
    exact .down hdir hname hnext (ih hrest hthere)

end Walks

/-- Where components point from a place, by their names alone. -/
def follow (place parts : List String) : List String :=
  (parts.filter fun part => part ≠ "" ∧ part ≠ ".").foldl
    (fun place part => if part = ".." then place.dropLast else place ++ [part]) place

theorem placeOf_eq_follow (disk : Disk) (path : String) :
    disk.placeOf path = follow (disk.base path) (piecesBy '/' path) := rfl

theorem follow_append (place parts more : List String) :
    follow place (parts ++ more) = follow (follow place parts) more := by
  rw [follow, List.filter_append, List.foldl_append]
  rfl

/-- Empty steps and single dots lead nowhere. -/
theorem follow_idle (place : List String) {parts : List String} (h : ∀ part ∈ parts, IsIdle part) :
    follow place parts = place := by
  have hnone : parts.filter (fun part => part ≠ "" ∧ part ≠ ".") = [] := by
    rw [List.filter_eq_nil_iff]
    intro part hpart
    rcases h part hpart with rfl | rfl <;> decide
  rw [follow, hnone]
  rfl

theorem follow_name (place : List String) {part : String} (hname : IsName part) :
    follow place [part] = place ++ [part] := by
  have hkeep : [part].filter (fun part => part ≠ "" ∧ part ≠ ".") = [part] := by
    rw [List.filter_eq_self]
    intro other hother
    obtain rfl := List.mem_singleton.mp hother
    simpa [not_or] using hname.active
  rw [follow, hkeep, List.foldl_cons, List.foldl_nil, if_neg hname.notUp]

/-- Names lead downwards. -/
theorem follow_names (place : List String) {parts : List String}
    (h : ∀ part ∈ parts, IsName part) : follow place parts = place ++ parts := by
  induction parts generalizing place with
  | nil => exact (List.append_nil place).symm
  | cons part parts ih =>
    obtain ⟨hname, hrest⟩ := List.forall_mem_cons.mp h
    rw [← List.singleton_append, follow_append, follow_name place hname, ih _ hrest,
      List.append_assoc]

/-- What is found at the end of a path is where its components point. -/
theorem Walks.eq_follow {disk : Disk} {place last parts : List String}
    (h : disk.Walks place parts last) : last = follow place parts := by
  induction h with
  | nil place => rfl
  | @idle place last part parts _ hidle _ ih =>
    have hpart : ∀ other ∈ [part], IsIdle other := by
      intro other hother
      rw [List.mem_singleton.mp hother]
      exact hidle
    rw [← List.singleton_append, follow_append, follow_idle place hpart]
    exact ih
  | @up place last parts _ _ ih =>
    rw [← List.singleton_append, follow_append]
    exact ih
  | @down place last part parts _ hname _ _ ih =>
    rw [← List.singleton_append, follow_append, follow_name place hname]
    exact ih

end Disk

end StackScript.Files
