import Mathlib.Data.List.Basic
import TermText.Files.Host

/-!
# Storing files

A store is seen place by place: there is a directory at a place, a file with its contents, or nothing.
Where a path leads depends on what is seen only. A file that is written, or a directory that is made, changes
what is seen at its own place and nowhere else; so a path that led to a file still does after other files were
written and directories made.

Operations that make directories do not see what files hold. Whatever was written to a file that is open, they
do the same.
-/

namespace TermText

/-- What is seen at a place: a directory, whatever it holds, or a file with its contents. -/
inductive Seen where
  | directory
  | file (octets : List UInt8)

/-- An entry of which no more is to be seen than itself. -/
def Seen.entry : Seen → Entry
  | .directory => .directory []
  | .file octets => .file octets

namespace Entry

/-- How an entry is seen. -/
def seen : Entry → Seen
  | .file octets => .file octets
  | .directory _ => .directory

/-- What is seen where names lead. -/
def look (e : Entry) (names : List Text) : Option Seen :=
  (e.find? names).map seen

/-- What is held under a name after an entry was put there. -/
theorem heldAt?_hold (name : Text) (e : Entry) (held : List (Text × Entry)) (other : Text) :
    heldAt? (hold name e held) other = if other = name then some e else heldAt? held other := by
  induction held with
  | nil => by_cases h : other = name <;> simp [hold, heldAt?, h, eq_comm]
  | cons item rest ih =>
    obtain ⟨first, old⟩ := item
    rw [heldAt?] at ih ⊢
    by_cases hfirst : first = name
    · by_cases h : other = name <;> simp [hold, heldAt?, hfirst, h, eq_comm]
    · by_cases h : first = other
      · have hne : other ≠ name := fun heq => hfirst (h.trans heq)
        simp [hold, heldAt?, h, hne]
      · simp [hold, heldAt?, hfirst, h, ih]

/-- What is seen behind the first name is seen in what is held under it. -/
theorem look_cons (held : List (Text × Entry)) (name : Text) (rest : List Text) :
    (directory held).look (name :: rest) = (heldAt? held name).bind fun inner => inner.look rest := by
  rw [look, find?]
  cases heldAt? held name <;> rfl

/-- What has something behind it is a directory. -/
theorem look_of_append {e : Entry} {names more : List Text} {x : Seen} (hmore : more ≠ [])
    (h : e.look (names ++ more) = some x) : e.look names = some .directory := by
  induction names generalizing e with
  | nil =>
    obtain ⟨name, rest, rfl⟩ := List.exists_cons_of_ne_nil hmore
    cases e with
    | directory held => rfl
    | file octets => cases h
  | cons name rest ih =>
    cases e with
    | file octets => cases h
    | directory held =>
      rw [List.cons_append, look_cons] at h
      obtain ⟨inner, hinner, hlook⟩ := Option.bind_eq_some_iff.mp h
      rw [look_cons, hinner]
      exact ih hlook

/-- Nothing is seen behind an entry of which no more is to be seen. -/
theorem look_entry (x : Seen) (names : List Text) :
    x.entry.look names = if names = [] then some x else none := by
  cases x <;> cases names <;> rfl

/-- Nothing is seen behind what is no directory. -/
theorem look_append_eq_none {e : Entry} {names more : List Text} (h : e.look names ≠ some .directory)
    (hmore : more ≠ []) : e.look (names ++ more) = none := by
  cases hlook : e.look (names ++ more) with
  | none => rfl
  | some x => exact absurd (look_of_append hmore hlook) h

/-- What is put into a directory, where there is none, is seen there and changes nothing else. -/
theorem look_put {e : Entry} {names : List Text} {name : Text} (hparent : e.look names = some .directory)
    (hfree : e.look (names ++ [name]) ≠ some .directory) (x : Seen) (other : List Text) :
    (e.put (names ++ [name]) x.entry).look other =
      if other = names ++ [name] then some x else e.look other := by
  induction names generalizing e other with
  | nil =>
    cases e with
    | file octets => cases hparent
    | directory held =>
      cases other with
      | nil => rfl
      | cons first rest =>
        rw [List.nil_append, put, put, look_cons, look_cons, heldAt?_hold]
        by_cases hname : first = name
        · subst hname
          rw [if_pos rfl, Option.bind_some, look_entry]
          cases rest with
          | nil => simp
          | cons second rest =>
            have hnone := look_append_eq_none hfree (List.cons_ne_nil second rest)
            rw [List.nil_append, List.singleton_append, look_cons] at hnone
            simp [hnone]
        · simp [hname]
  | cons first names ih =>
    cases e with
    | file octets => cases hparent
    | directory held =>
      rw [look_cons] at hparent
      obtain ⟨inner, hinner, hinside⟩ := Option.bind_eq_some_iff.mp hparent
      rw [List.cons_append, look_cons, hinner, Option.bind_some] at hfree
      cases other with
      | nil => rfl
      | cons second rest =>
        rw [List.cons_append, put, hinner, Option.getD_some, look_cons, look_cons, heldAt?_hold]
        by_cases hsecond : second = first
        · subst hsecond
          rw [if_pos rfl, Option.bind_some, ih hinside hfree, hinner, Option.bind_some]
          simp
        · simp [hsecond]

end Entry

/-- The place of a name in a directory. -/
def Location.inner (place : Location) (name : Text) : Location :=
  ⟨place.base, place.parts ++ [name]⟩

namespace Store

/-- What is seen at a place. -/
def look (s : Store) (place : Location) : Option Seen :=
  (s.tree place.base).look place.parts

/-- At a base there is a directory. -/
theorem look_base (s : Store) (base : Base) : s.look ⟨base, []⟩ = some .directory := rfl

/-- The tree at a base after one was replaced. -/
theorem tree_cons (base : Base) (held : List (Text × Entry)) (trees : List (Base × List (Text × Entry)))
    (other : Base) :
    tree ⟨(base, held) :: trees.filter fun item => item.1 ≠ base⟩ other =
      if other = base then .directory held else tree ⟨trees⟩ other := by
  by_cases h : other = base
  · simp [tree, h]
  · have hothers : (trees.filter fun item => item.1 ≠ base).find? (fun item => item.1 = other) =
        trees.find? fun item => item.1 = other := by
      rw [List.find?_filter]
      congr 1
      funext item
      by_cases hitem : item.1 = other
      · simp [hitem, h]
      · simp [hitem]
    rw [if_neg h, tree, List.find?_cons_of_neg (by simpa using Ne.symm h), hothers]
    rfl

variable {s : Store} {place above : Location} {name : Text}

/-- What is put into a directory of a store, where there is none, is seen there and changes nothing else. -/
theorem look_put (habove : s.look above = some .directory)
    (hfree : s.look (above.inner name) ≠ some .directory) (x : Seen) (q : Location) :
    (s.put (above.inner name) x.entry).look q = if q = above.inner name then some x else s.look q := by
  obtain ⟨base, names⟩ := above
  obtain ⟨other, rest⟩ := q
  have hput := Entry.look_put habove hfree x rest
  -- The tree at the base is a directory, and stays one.
  obtain ⟨held, hheld⟩ : ∃ held, (s.tree base).put (names ++ [name]) x.entry = .directory held := by
    cases names <;> exact ⟨_, rfl⟩
  have hstore : s.put (Location.inner ⟨base, names⟩ name) x.entry =
      ⟨(base, held) :: s.trees.filter fun item => item.1 ≠ base⟩ := by
    rw [put]
    dsimp only [Location.inner]
    rw [hheld]
    rfl
  rw [look, hstore, tree_cons]
  by_cases hbase : other = base
  · subst hbase
    rw [if_pos rfl, ← hheld]
    simpa [Location.inner, look] using hput
  · simp [Location.inner, hbase, look]

/-- What is above a directory is a directory. -/
theorem look_above (h : s.look place = some .directory) : s.look (Store.above place) = some .directory := by
  obtain ⟨base, names⟩ := place
  cases names with
  | nil => cases base <;> rfl
  | cons name rest =>
    have hsplit := List.dropLast_append_getLast (List.cons_ne_nil name rest)
    rw [look, ← hsplit] at h
    exact Entry.look_of_append (List.cons_ne_nil _ _) h

end Store

/-- The spot that is seen at a place. -/
def Spot.ofSeen (place : Location) : Option Seen → Spot
  | some .directory => .directory place
  | some (.file octets) => .file place octets
  | none => .vacant place

namespace Store

variable {s s' : Store} {start place above : Location} {part path : Text} {parts : List Text}
  {octets : List UInt8} {spot : Spot}

/-- A component leads to what is seen under it as a name; or it is a point, two points or too long, and then
the store makes no difference. -/
theorem enter_fixed_or_seen (place : Location) (part : Text) :
    (∃ r : Except FileCondition Location, (∀ s : Store, s.enter place part = r.map .directory) ∧
        ∀ inner, r = .ok inner → inner = place ∨ inner = Store.above place) ∨
      ∀ s : Store, s.enter place part = .ok (.ofSeen (place.inner part) (s.look (place.inner part))) := by
  simp only [enter]
  split
  · exact .inl ⟨.ok place, fun _ => rfl, fun _ h => .inl (Except.ok.inj h).symm⟩
  split
  · exact .inl ⟨.ok (Store.above place), fun _ => rfl, fun _ h => .inr (Except.ok.inj h).symm⟩
  split
  · exact .inl ⟨.error .nameTooLong, fun _ => rfl, nofun⟩
  refine .inr fun s => ?_
  rw [look]
  change _ = Except.ok (Spot.ofSeen (place.inner part) ((s.find? (place.inner part)).map Entry.seen))
  cases hfound : s.find? (place.inner part) with
  | none =>
    rw [Location.inner] at hfound
    rw [hfound]
    rfl
  | some e =>
    rw [Location.inner] at hfound
    rw [hfound]
    cases e <;> rfl

/-- A spot as it is in a store: a directory, or a file or a free place in a directory. -/
inductive Shows (s : Store) : Spot → Prop
  | directory {place : Location} (here : s.look place = some .directory) : Shows s (.directory place)
  | file {above : Location} {name : Text} {octets : List UInt8} (inside : s.look above = some .directory)
      (here : s.look (above.inner name) = some (.file octets)) : Shows s (.file (above.inner name) octets)
  | vacant {above : Location} {name : Text} (inside : s.look above = some .directory)
      (here : s.look (above.inner name) = none) : Shows s (.vacant (above.inner name))

/-- What is seen in a directory is a spot of the store. -/
theorem shows_ofSeen (h : s.look above = some .directory) (name : Text) :
    s.Shows (.ofSeen (above.inner name) (s.look (above.inner name))) := by
  cases hseen : s.look (above.inner name) with
  | none => exact .vacant h hseen
  | some x =>
    cases x with
    | directory => exact .directory hseen
    | file octets => exact .file h hseen

/-- From a directory a component leads to a spot of the store. -/
theorem shows_enter (h : s.look place = some .directory) (hspot : s.enter place part = .ok spot) :
    s.Shows spot := by
  obtain ⟨r, hfixed, hplaces⟩ | hseen := enter_fixed_or_seen place part
  · rw [hfixed] at hspot
    cases r with
    | error e => cases hspot
    | ok inner =>
      cases hspot
      obtain rfl | rfl := hplaces inner rfl
      · exact .directory h
      · exact .directory (look_above h)
  · rw [hseen] at hspot
    exact Except.ok.inj hspot ▸ shows_ofSeen h part

/-- From a directory components lead to a spot of the store. -/
theorem shows_walk (h : s.look start = some .directory) (hspot : s.walk start parts = .ok spot) :
    s.Shows spot := by
  fun_induction s.walk start parts with
  | case1 place =>
    cases hspot
    exact .directory h
  | case2 place part => exact shows_enter h hspot
  | case3 place part rest hrest inner henter ih =>
    cases shows_enter h henter with
    | directory hinner => exact ih hinner hspot
  | case4 => cases hspot
  | case5 => cases hspot
  | case6 => cases hspot

/-- A path is refused for its own sake, or it is followed from a base, whatever the store. -/
theorem resolve_refused_or_walk (path : Text) :
    (∃ e, ∀ s : Store, s.resolve path = .error e) ∨
      ∃ base, ∀ s : Store, s.resolve path = s.walk ⟨base, []⟩ (Path.componentsOf path) := by
  simp only [resolve, resolveParts]
  split
  · exact .inl ⟨_, fun _ => rfl⟩
  split
  · exact .inl ⟨_, fun _ => rfl⟩
  split
  · exact .inl ⟨_, fun _ => rfl⟩
  exact .inr ⟨_, fun _ => rfl⟩

/-- A path leads to a spot of the store. -/
theorem shows_resolve (hspot : s.resolve path = .ok spot) : s.Shows spot := by
  obtain ⟨e, hrefused⟩ | ⟨base, hwalk⟩ := resolve_refused_or_walk path
  · rw [hrefused] at hspot
    cases hspot
  · rw [hwalk] at hspot
    exact shows_walk (s.look_base base) hspot

/-- A path that leads to a place for a file: to a file that is there, or to a free place. -/
def Leads (s : Store) (path : Text) (place : Location) : Prop :=
  demandsDirectory path = false ∧
    ((∃ octets, s.resolve path = .ok (.file place octets)) ∨ s.resolve path = .ok (.vacant place))

/-- A path leads to one place. -/
theorem Leads.unique {other : Location} (h : s.Leads path place) (h' : s.Leads path other) : place = other := by
  obtain ⟨-, ⟨octets, h⟩ | h⟩ := h <;> obtain ⟨-, ⟨octets', h'⟩ | h'⟩ := h' <;> rw [h] at h' <;> cases h' <;> rfl

/-- A file is written where the path leads. -/
theorem writeAt_eq_ok_iff : s.writeAt path octets = .ok s' ↔
    ∃ place, s.Leads path place ∧ s' = s.put place (.file octets) := by
  rw [writeAt]
  constructor
  · intro h
    split at h
    · cases h
    next hdemands =>
      split at h
      · next place old hspot =>
        exact ⟨place, ⟨Bool.eq_false_iff.mpr hdemands, .inl ⟨old, hspot⟩⟩, (Except.ok.inj h).symm⟩
      · next place hspot =>
        exact ⟨place, ⟨Bool.eq_false_iff.mpr hdemands, .inr hspot⟩, (Except.ok.inj h).symm⟩
      · cases h
      · cases h
  · rintro ⟨place, ⟨hdemands, ⟨old, hspot⟩ | hspot⟩, rfl⟩ <;> simp [hdemands, hspot]

/-- What is seen after a file was written. -/
theorem Leads.look_put (h : s.Leads path place) (octets : List UInt8) (q : Location) :
    (s.put place (.file octets)).look q = if q = place then some (.file octets) else s.look q := by
  obtain ⟨-, ⟨old, hspot⟩ | hspot⟩ := h
  · cases shows_resolve hspot with
    | file inside here => exact Store.look_put inside (by rw [here]; simp) (.file octets) q
  · cases shows_resolve hspot with
    | vacant inside here => exact Store.look_put inside (by rw [here]; simp) (.file octets) q

/-- Where a path leads there is no directory. -/
theorem Leads.look_ne (h : s.Leads path place) : s.look place ≠ some .directory := by
  obtain ⟨-, ⟨old, hspot⟩ | hspot⟩ := h
  · cases shows_resolve hspot with
    | file inside here => rw [here]; simp
  · cases shows_resolve hspot with
    | vacant inside here => rw [here]; simp

/-- A store in which the directories of another one are still there. -/
def KeepsDirectories (s s' : Store) : Prop :=
  ∀ q, s.look q = some .directory → s'.look q = some .directory

/-- Writing a file keeps the directories. -/
theorem Leads.keepsDirectories (h : s.Leads path place) (octets : List UInt8) :
    s.KeepsDirectories (s.put place (.file octets)) := by
  intro q hq
  have hne : q ≠ place := by
    rintro rfl
    exact h.look_ne hq
  rw [h.look_put, if_neg hne, hq]

/-- A component that led to a directory still does. -/
theorem KeepsDirectories.enter_directory (hkeeps : s.KeepsDirectories s')
    (h : s.enter start part = .ok (.directory place)) : s'.enter start part = .ok (.directory place) := by
  obtain ⟨r, hfixed, -⟩ | hseen := enter_fixed_or_seen start part
  · rwa [hfixed] at h ⊢
  · rw [hseen] at h ⊢
    cases hlook : s.look (start.inner part) with
    | none =>
      rw [hlook] at h
      cases h
    | some x =>
      rw [hlook] at h
      cases x with
      | file octets => cases h
      | directory => rwa [hkeeps _ hlook]

/-- A component that led to a place for a file leads to the file that is there now. -/
theorem enter_file (hfile : s'.look place = some (.file octets))
    (h : (∃ old, s.enter start part = .ok (.file place old)) ∨ s.enter start part = .ok (.vacant place)) :
    s'.enter start part = .ok (.file place octets) := by
  obtain ⟨r, hfixed, -⟩ | hseen := enter_fixed_or_seen start part
  · rw [hfixed] at h
    cases r <;> obtain ⟨old, h⟩ | h := h <;> cases h
  · have hplace : start.inner part = place := by
      rw [hseen] at h
      cases hlook : s.look (start.inner part) with
      | none =>
        rw [hlook] at h
        obtain ⟨old, h⟩ | h := h <;> cases h
        rfl
      | some x =>
        rw [hlook] at h
        cases x <;> obtain ⟨old, h⟩ | h := h <;> cases h
        rfl
    rw [hseen, hplace, hfile]
    rfl

/-- Components that led to a place for a file lead to the file that is there now, if the directories on the
way are still there. -/
theorem KeepsDirectories.walk_file (hkeeps : s.KeepsDirectories s')
    (hfile : s'.look place = some (.file octets))
    (h : (∃ old, s.walk start parts = .ok (.file place old)) ∨ s.walk start parts = .ok (.vacant place)) :
    s'.walk start parts = .ok (.file place octets) := by
  fun_induction s.walk start parts with
  | case1 start => obtain ⟨old, h⟩ | h := h <;> cases h
  | case2 start part => exact enter_file hfile h
  | case3 start part rest hrest inner henter ih =>
    rw [walk, hkeeps.enter_directory henter]
    · exact ih h
    · exact hrest
  | case4 => obtain ⟨old, h⟩ | h := h <;> cases h
  | case5 => obtain ⟨old, h⟩ | h := h <;> cases h
  | case6 => obtain ⟨old, h⟩ | h := h <;> cases h

/-- A path that led to a place for a file leads to the file that is there now, if the directories are still
there; it is read as it was written. -/
theorem KeepsDirectories.readAt (hkeeps : s.KeepsDirectories s') (h : s.Leads path place)
    (hfile : s'.look place = some (.file octets)) :
    s'.Leads path place ∧ s'.readAt path = .ok octets := by
  obtain ⟨hdemands, hleads⟩ := h
  have hspot : s'.resolve path = .ok (.file place octets) := by
    obtain ⟨e, hrefused⟩ | ⟨base, hwalk⟩ := resolve_refused_or_walk path
    · rw [hrefused] at hleads
      obtain ⟨old, h⟩ | h := hleads <;> cases h
    · rw [hwalk] at hleads ⊢
      exact hkeeps.walk_file hfile hleads
  refine ⟨⟨hdemands, .inl ⟨octets, hspot⟩⟩, ?_⟩
  rw [Store.readAt, hspot]
  simp [hdemands]

end Store

/-- What is seen at a place but for what a file holds. -/
def Seen.blank : Seen → Seen
  | .directory => .directory
  | .file _ => .file []

/-- What a path leads to but for what a file holds. -/
def Spot.blank : Spot → Spot
  | .file place _ => .file place []
  | spot => spot

/-- A spot that was seen is blank if what was seen there is. -/
theorem Spot.blank_ofSeen (place : Location) (x : Option Seen) :
    (Spot.ofSeen place x).blank = .ofSeen place (x.map Seen.blank) := by
  cases x with
  | none => rfl
  | some x => cases x <;> rfl

/-- Results that agree but for what a file holds are the same, or both are a file at one place. -/
theorem Spot.eq_or_file {r r' : Except FileCondition Spot} (h : r.map Spot.blank = r'.map Spot.blank) :
    r = r' ∨ ∃ place octets octets', r = .ok (.file place octets) ∧ r' = .ok (.file place octets') := by
  cases r with
  | error e =>
    cases r' with
    | error e' => cases h; exact .inl rfl
    | ok spot' => cases h
  | ok spot =>
    cases r' with
    | error e' => cases h
    | ok spot' =>
      have hspot := Except.ok.inj h
      cases spot <;> cases spot' <;> cases hspot
      · exact .inl rfl
      · exact .inr ⟨_, _, _, rfl, rfl⟩
      · exact .inl rfl

namespace Store

variable {s s' : Store} {place : Location} {path : Text} {octets : List UInt8}

/-- Stores that differ at most in what files hold. -/
def Alike (s s' : Store) : Prop :=
  ∀ q, (s.look q).map Seen.blank = (s'.look q).map Seen.blank

/-- In stores alike a component leads to the same but for what a file holds. -/
theorem Alike.enter (h : s.Alike s') (start : Location) (part : Text) :
    (s.enter start part).map Spot.blank = (s'.enter start part).map Spot.blank := by
  obtain ⟨r, hfixed, -⟩ | hseen := enter_fixed_or_seen start part
  · rw [hfixed, hfixed]
  · rw [hseen, hseen, Except.map, Except.map, Spot.blank_ofSeen, Spot.blank_ofSeen, h]

/-- In stores alike components lead to the same but for what a file holds. -/
theorem Alike.walk (h : s.Alike s') (start : Location) (parts : List Text) :
    (s.walk start parts).map Spot.blank = (s'.walk start parts).map Spot.blank := by
  induction parts generalizing start with
  | nil => rfl
  | cons part rest ih =>
    have henter := h.enter start part
    cases rest with
    | nil => exact henter
    | cons second rest =>
      rw [Store.walk.eq_3 _ _ _ _ (List.cons_ne_nil second rest),
        Store.walk.eq_3 _ _ _ _ (List.cons_ne_nil second rest)]
      obtain heq | ⟨place, octets, octets', hfile, hfile'⟩ := Spot.eq_or_file henter
      · rw [heq]
        split
        · exact ih _
        · rfl
        · rfl
        · rfl
      · rw [hfile, hfile']

/-- In stores alike a path leads to the same but for what a file holds. -/
theorem Alike.resolve (h : s.Alike s') (path : Text) :
    (s.resolve path).map Spot.blank = (s'.resolve path).map Spot.blank := by
  obtain ⟨e, hrefused⟩ | ⟨base, hwalk⟩ := resolve_refused_or_walk path
  · rw [hrefused, hrefused]
  · rw [hwalk, hwalk]
    exact h.walk ⟨base, []⟩ _

/-- Stores are alike either way. -/
theorem Alike.symm (h : s.Alike s') : s'.Alike s :=
  fun q => (h q).symm

/-- In stores alike a path leads to the same place for a file. -/
theorem Alike.leads (h : s.Alike s') (hleads : s.Leads path place) : s'.Leads path place := by
  refine ⟨hleads.1, ?_⟩
  obtain heq | ⟨other, octets, octets', hfile, hfile'⟩ := Spot.eq_or_file (h.resolve path)
  · rw [← heq]
    exact hleads.2
  · have hplace : place = other := hleads.unique ⟨hleads.1, .inl ⟨octets, hfile⟩⟩
    exact .inl ⟨octets', hplace ▸ hfile'⟩

/-- A store is like the one after a file was written that was there before. -/
theorem Leads.alike_put (h : s.Leads path place) (hfile : s.look place = some (.file octets))
    (more : List UInt8) : s.Alike (s.put place (.file more)) := by
  intro q
  rw [h.look_put]
  split
  · next hplace =>
    rw [hplace, hfile]
    rfl
  · rfl

/-- A store in which all that is seen in another one is seen. -/
def Within (s s' : Store) : Prop :=
  ∀ q x, s.look q = some x → s'.look q = some x

/-- A store within another one has its directories there. -/
theorem Within.keepsDirectories (h : s.Within s') : s.KeepsDirectories s' :=
  fun q => h q .directory

/-- What is seen after a directory was made at a free place. -/
theorem look_of_vacant (h : s.resolve path = .ok (.vacant place)) (q : Location) :
    (s.put place (.directory [])).look q = if q = place then some .directory else s.look q := by
  cases shows_resolve h with
  | vacant inside here => exact Store.look_put inside (by rw [here]; simp) .directory q

/-- After a directory was made at a free place all is seen that was seen before. -/
theorem within_of_vacant (h : s.resolve path = .ok (.vacant place)) :
    s.Within (s.put place (.directory [])) := by
  intro q x hq
  cases hshows : shows_resolve h with
  | vacant inside here =>
    rw [look_of_vacant h, if_neg _, hq]
    rintro rfl
    rw [here] at hq
    cases hq

/-- A change that does not fail is made. -/
theorem run_update {change : Store → Except FileError Store} (h : change s = .ok s') :
    (update change).run s = (.ok (), s') := by
  simp only [update, StateT.run, h]

/-- A change that fails leaves the store as it is. -/
theorem run_update_error {change : Store → Except FileError Store} {e : FileError} (h : change s = .error e) :
    (update change).run s = (.error e, s) := by
  simp only [update, StateT.run, h]

/-- In stores alike the same places are free. -/
theorem Alike.resolve_vacant (h : s.Alike s') (hspot : s.resolve path = .ok (.vacant place)) :
    s'.resolve path = .ok (.vacant place) := by
  obtain heq | ⟨other, octets, octets', hfile, -⟩ := Spot.eq_or_file (h.resolve path)
  · rw [← heq, hspot]
  · rw [hfile] at hspot
    cases hspot

/-- A directory is made if the path leads to a free place; otherwise it is refused, in stores alike for the same
reason. -/
theorem makeDirectoryAt_made_or_refused (s : Store) (path : Text) :
    (∃ place, s.resolve path = .ok (.vacant place) ∧
        s.makeDirectoryAt path = .ok (s.put place (.directory []))) ∨
      ∃ e, s.makeDirectoryAt path = .error e ∧ ∀ s' : Store, s.Alike s' → s'.makeDirectoryAt path = .error e := by
  cases hspot : s.resolve path with
  | error condition =>
    refine .inr ⟨⟨condition, path⟩, by rw [makeDirectoryAt, hspot], fun s' h => ?_⟩
    obtain heq | ⟨place, octets, octets', hfile, -⟩ := Spot.eq_or_file (h.resolve path)
    · rw [makeDirectoryAt, ← heq, hspot]
    · rw [hfile] at hspot
      cases hspot
  | ok spot =>
    cases spot with
    | vacant place => exact .inl ⟨place, rfl, by rw [makeDirectoryAt, hspot]⟩
    | directory place | file place octets =>
      refine .inr ⟨⟨.fileExists, path⟩, by rw [makeDirectoryAt, hspot], fun s' h => ?_⟩
      obtain heq | ⟨_, _, _, -, hfile⟩ := Spot.eq_or_file (h.resolve path)
      · rw [makeDirectoryAt, ← heq, hspot]
      · rw [makeDirectoryAt, hfile]

/-- Steps that at most make directories: all that was seen before is seen after them, and what files hold makes
no difference to them. -/
structure MakesDirectories {α : Type} (step : StateM Store α) : Prop where
  within : ∀ s : Store, s.Within (step.run s).2
  alike : ∀ s s' : Store, s.Alike s' →
    (step.run s).1 = (step.run s').1 ∧ (step.run s).2.Alike (step.run s').2

namespace MakesDirectories

variable {α β : Type}

/-- To do nothing makes no more than directories. -/
theorem pure (a : α) : MakesDirectories (Pure.pure a : StateM Store α) :=
  ⟨fun _ _ _ h => h, fun _ _ h => ⟨rfl, h⟩⟩

/-- Steps one after the other make at most directories if each does. -/
theorem bind {step : StateM Store α} {next : α → StateM Store β} (h : MakesDirectories step)
    (hnext : ∀ a, MakesDirectories (next a)) : MakesDirectories (step >>= next) := by
  constructor
  · intro s q x hq
    exact (hnext _).within _ q x (h.within s q x hq)
  · intro s s' hs
    obtain ⟨hresult, hafter⟩ := h.alike s s' hs
    have htwo := (hnext (step.run s).1).alike _ _ hafter
    change ((next (step.run s).1).run (step.run s).2).1 = ((next (step.run s').1).run (step.run s').2).1 ∧
      ((next (step.run s).1).run (step.run s).2).2.Alike ((next (step.run s').1).run (step.run s').2).2
    rwa [← hresult]

/-- Asking for a directory changes nothing. -/
theorem isDirectory (input path : Text) : MakesDirectories ((Store.host input).isDirectory path) := by
  refine ⟨fun _ _ _ h => h, fun s s' h => ⟨?_, h⟩⟩
  change s.isDirectoryAt path = s'.isDirectoryAt path
  rw [isDirectoryAt, isDirectoryAt]
  obtain heq | ⟨place, octets, octets', hfile, hfile'⟩ := Spot.eq_or_file (h.resolve path)
  · rw [heq]
  · rw [hfile, hfile']

/-- Making a directory makes at most a directory. -/
theorem makeDirectory (input path : Text) : MakesDirectories ((Store.host input).makeDirectory path) := by
  change MakesDirectories (update fun s => s.makeDirectoryAt path)
  constructor
  · intro s q x hq
    obtain ⟨place, hspot, hmade⟩ | ⟨e, hrefused, -⟩ := makeDirectoryAt_made_or_refused s path
    · rw [run_update hmade]
      exact within_of_vacant hspot q x hq
    · rw [run_update_error hrefused]
      exact hq
  · intro s s' hs
    obtain ⟨place, hspot, hmade⟩ | ⟨e, hrefused, halike⟩ := makeDirectoryAt_made_or_refused s path
    · have hspot' : s'.resolve path = .ok (.vacant place) := hs.resolve_vacant hspot
      have hmade' : s'.makeDirectoryAt path = .ok (s'.put place (.directory [])) := by
        rw [makeDirectoryAt, hspot']
      rw [run_update hmade, run_update hmade']
      refine ⟨rfl, fun q => ?_⟩
      rw [look_of_vacant hspot, look_of_vacant hspot']
      split
      · rfl
      · exact hs q
    · rw [run_update_error hrefused, run_update_error (halike s' hs)]
      exact ⟨rfl, hs⟩

end MakesDirectories

end Store

end TermText
