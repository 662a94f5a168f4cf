/-
# `Compendium.Proofs.Settings.Value` — settings and layers, key by key

Settings have a value for each key (`Settings.value`), and a layer has one for each key that it sets
(`Layer.value?`).  To put a layer over settings is one rule for all keys but for what happens to a
key that the layer does not set: a path stays, and a switch is off (`value_merge`).

What a file says about a key is looked up in its text, in the object, array or table that it is
(`Format.settingOf?`).  A layer that can be read from the text says the same
(`Layer.value?_ofText`).  A path that is null in a file is not set there.
-/
import Compendium.Settings.File

namespace Compendium

/-! ## The value of a key -/

/-- Whether a key is set to a path.  The others are switches. -/
def Key.isPath : Key → Bool
  | .input | .output | .root => true
  | .deeper | .contents | .strict => false

def Key.default (k : Key) : Setting := if k.isPath then .unset else .flag false

theorem Key.ofName?_eq_some_iff {t : Text} {k : Key} : Key.ofName? t = some k ↔ t = k.name := by
  constructor
  · intro h
    have := List.find?_some h
    exact (decide_eq_true_eq.mp this).symm
  · rintro rfl
    cases k <;> decide

/-- The value of a path, which may be unset. -/
def Setting.ofPath? : Option Path → Setting
  | some p => .path p
  | none => .unset

/-- A value that is set. -/
def Setting.set? : Setting → Option Setting
  | .unset => none
  | v => some v

def Settings.value (s : Settings) : Key → Setting
  | .input => .ofPath? s.input
  | .output => .ofPath? s.output
  | .root => .ofPath? s.root
  | .deeper => .flag s.deeper
  | .contents => .flag s.contents
  | .strict => .flag s.strict

/-- The value that a layer sets a key to. -/
def Layer.value? (l : Layer) : Key → Option Setting
  | .input => l.input.map .path
  | .output => l.output.map .path
  | .root => l.root.map .path
  | .deeper => l.deeper.map .flag
  | .contents => l.contents.map .flag
  | .strict => l.strict.map .flag

theorem Setting.ofPath?_or (p q : Option Path) :
    Setting.ofPath? (p.or q) = (p.map Setting.path).getD (.ofPath? q) := by
  cases p <;> rfl

theorem Setting.flag_getD (b : Option Bool) (c : Bool) :
    Setting.flag (b.getD c) = (b.map Setting.flag).getD (.flag c) := by
  cases b <;> rfl

theorem Settings.value_blank (key : Key) : Settings.blank.value key = key.default := by
  cases key <;> rfl

theorem Settings.merge_blank (s : Settings) : blank.merge s = s := by
  simp [merge, blank]

/-- With a layer over the settings, a key that the layer sets has the value from there; else a path
has its earlier value, and a switch is off. -/
theorem Settings.value_merge (s : Settings) (l : Layer) (key : Key) :
    (s.merge l.settings).value key =
      (l.value? key).getD (if key.isPath then s.value key else key.default) := by
  cases key with
  | input | output | root => exact Setting.ofPath?_or _ _
  | deeper | contents | strict => exact Setting.flag_getD _ false

/-! ## Layers from lists of settings -/

namespace Layer

theorem value?_blank (key : Key) : blank.value? key = none := by
  cases key <;> rfl

theorem value?_set? {l l' : Layer} {k : Key} {v : Setting} (h : l.set? k v = some l') (key : Key) :
    l'.value? key = if key = k then v.set? else l.value? key := by
  cases k <;> cases v <;> simp only [set?, Option.some.injEq, reduceCtorEq] at h <;>
    subst h <;> cases key <;> rfl

theorem value?_foldlM {pairs : List (Key × Setting)} {l l' : Layer}
    (hnodup : (pairs.map Prod.fst).Nodup)
    (h : pairs.foldlM (fun l (k, v) => l.set? k v) l = some l') (key : Key) :
    l'.value? key = (pairs.lookup key).elim (l.value? key) Setting.set? := by
  induction pairs generalizing l with
  | nil =>
      obtain rfl := Option.some.inj h
      rfl
  | cons pair pairs ih =>
      obtain ⟨k, v⟩ := pair
      rw [List.foldlM_cons] at h
      obtain ⟨l₁, hset, h⟩ := Option.bind_eq_some_iff.mp h
      rw [List.map_cons, List.nodup_cons] at hnodup
      rw [ih hnodup.2 h, value?_set? hset]
      by_cases hk : key = k
      · -- no later pair is about this key
        subst hk
        have hnone : pairs.lookup key = none := by
          rw [List.lookup_eq_none_iff]
          intro p hp
          refine bne_iff_ne.mpr ?_
          rintro rfl
          exact hnodup.1 (List.mem_map.mpr ⟨p, hp, rfl⟩)
        rw [hnone, if_pos rfl, List.lookup_cons_self]
        rfl
      · rw [if_neg hk, List.lookup_cons, beq_eq_false_iff_ne.mpr hk]

theorem value?_ofSettings? {pairs : List (Key × Setting)} {l : Layer}
    (h : ofSettings? pairs = some l) (key : Key) :
    l.value? key = (pairs.lookup key).bind Setting.set? := by
  simp only [ofSettings?] at h
  split at h
  · next hnodup =>
    rw [value?_foldlM hnodup h, value?_blank]
    cases pairs.lookup key <;> rfl
  · cases h

end Layer

/-! ## What a text says about a key -/

/-- What a JSON value says about a key: in an object the member of that name does, in an array the
element in the place of the key. -/
def JsonValue.settingOf? (key : Key) : JsonValue → Option Setting
  | .object ms => (ms.find? (·.1 = some key.name)).bind fun m => m.2.setting?
  | .array vs => ((Key.all.zip vs).lookup key).bind JsonValue.setting?
  | _ => none

def TomlTable.settingOf? (key : Key) (t : TomlTable) : Option Setting :=
  (t.get? key.name).bind TomlValue.setting?

/-- The value that a text in a format sets a key to. -/
def Format.settingOf? [Formats] (f : Format) (t : Text) (key : Key) : Option Setting :=
  (match f with
    | .json => (Formats.json t).bind (JsonValue.settingOf? key)
    | .toml => (Formats.toml t).bind (TomlTable.settingOf? key)).bind Setting.set?

namespace Layer

/-- The keys among named values, with what they are set to. -/
def keysOf? {α : Type} (setting? : α → Option Setting) :
    List (Text × α) → Option (List (Key × Setting))
  | [] => some []
  | (k, v) :: t =>
    match Key.ofName? k, keysOf? setting? t with
    | some key, some rest => (setting? v).map fun s => (key, s) :: rest
    | none, some rest => some rest
    | _, none => none

theorem keysOfTable?_eq (t : TomlTable) : keysOfTable? t = keysOf? TomlValue.setting? t := by
  induction t with
  | nil => rfl
  | cons m t ih =>
      rw [keysOfTable?, ih]
      rfl

theorem exists_named {ms : List (Option Text × JsonValue)} {pairs : List (Key × Setting)}
    (h : keysOfMembers? ms = some pairs) :
    ∃ t : List (Text × JsonValue), ms = t.map (fun m => (some m.1, m.2)) ∧
      keysOf? JsonValue.setting? t = some pairs := by
  induction ms generalizing pairs with
  | nil => exact ⟨[], rfl, h⟩
  | cons m ms ih =>
      obtain ⟨_ | name, v⟩ := m
      · cases h
      · cases hrest : keysOfMembers? ms with
        | none =>
            rw [keysOfMembers?, hrest] at h
            split at h <;> simp_all
        | some rest =>
            obtain ⟨t, rfl, ht⟩ := ih hrest
            refine ⟨(name, v) :: t, rfl, ?_⟩
            simp only [keysOfMembers?, hrest] at h
            simp only [keysOf?, ht]
            exact h

theorem lookup_keysOf? {α : Type} {setting? : α → Option Setting} {t : List (Text × α)}
    {pairs : List (Key × Setting)} (h : keysOf? setting? t = some pairs) (key : Key) :
    pairs.lookup key = (t.find? (·.1 = key.name)).bind fun m => setting? m.2 := by
  induction t generalizing pairs with
  | nil =>
      obtain rfl := Option.some.inj h
      rfl
  | cons m t ih =>
      obtain ⟨name, v⟩ := m
      simp only [keysOf?] at h
      split at h
      · next k rest hk hrest =>
        obtain ⟨v', hv, rfl⟩ := Option.map_eq_some_iff.mp h
        obtain rfl := Key.ofName?_eq_some_iff.mp hk
        by_cases hkey : key = k
        · subst hkey
          rw [List.lookup_cons_self, List.find?_cons_of_pos (by simp), Option.bind_some, hv]
        · have hname : k.name ≠ key.name := fun hn =>
            hkey (Option.some.inj ((Key.ofName?_eq_some_iff.mpr hn).symm.trans hk))
          rw [List.lookup_cons, beq_eq_false_iff_ne.mpr hkey, List.find?_cons_of_neg (by simpa),
            ih hrest]
      · next rest hk hrest =>
        obtain rfl := Option.some.inj h
        have hname : name ≠ key.name := fun hn => by
          rw [Key.ofName?_eq_some_iff.mpr hn] at hk
          cases hk
        rw [List.find?_cons_of_neg (by simpa), ih hrest]
      · cases h

theorem lookup_keysOfElements? {keys : List Key} {vs : List JsonValue}
    {pairs : List (Key × Setting)} (h : keysOfElements? keys vs = some pairs) (key : Key) :
    pairs.lookup key = ((keys.zip vs).lookup key).bind JsonValue.setting? := by
  induction vs generalizing keys pairs with
  | nil =>
      simp only [keysOfElements?, Option.some.injEq] at h
      rw [← h, List.zip_nil_right]
      rfl
  | cons v vs ih =>
      cases keys with
      | nil => cases h
      | cons k keys =>
          simp only [keysOfElements?] at h
          split at h
          · next s rest hv hrest =>
            obtain rfl := Option.some.inj h
            rw [List.zip_cons_cons, List.lookup_cons, List.lookup_cons, ih hrest]
            split
            · exact hv.symm
            · rfl
          · cases h

theorem elim_eq_ok_iff {l? : Option Layer} {e : SettingsError} {l : Layer} :
    l?.elim (.error e) Except.ok = .ok l ↔ l? = some l := by
  cases l? <;> simp

/-- A layer that is read from a text sets the keys to what the text says about them. -/
theorem value?_ofText [Formats] {f : Format} {t : Text} {l : Layer} (h : ofText f t = .ok l) (key : Key) :
    l.value? key = f.settingOf? t key := by
  cases f with
  | json =>
      obtain ⟨j, hj, hl⟩ := Option.bind_eq_some_iff.mp (elim_eq_ok_iff.mp h)
      simp only [Format.settingOf?, hj, Option.bind_some]
      cases j with
      | object ms =>
          obtain ⟨pairs, hpairs, hset⟩ := Option.bind_eq_some_iff.mp hl
          obtain ⟨t, rfl, ht⟩ := exists_named hpairs
          rw [value?_ofSettings? hset, lookup_keysOf? ht, JsonValue.settingOf?, List.find?_map,
            Option.bind_map]
          simp only [Function.comp_def, Option.some.injEq]
      | array vs =>
          obtain ⟨pairs, hpairs, hset⟩ := Option.bind_eq_some_iff.mp hl
          rw [value?_ofSettings? hset, lookup_keysOfElements? hpairs]
          rfl
      | _ => cases hl
  | toml =>
      obtain ⟨table, htable, hl⟩ := Option.bind_eq_some_iff.mp (elim_eq_ok_iff.mp h)
      obtain ⟨pairs, hpairs, hset⟩ := Option.bind_eq_some_iff.mp hl
      rw [keysOfTable?_eq] at hpairs
      simp only [Format.settingOf?, htable, Option.bind_some]
      rw [value?_ofSettings? hset, lookup_keysOf? hpairs, TomlTable.settingOf?, TomlTable.get?,
        Option.bind_map]
      rfl

end Layer

end Compendium
