import DreamChain.Chain.NativeActions

/-!
The permissions of an account form a tree below its owner permission. The index only stores
the id of each parent, with 0 for none; that the ids lead anywhere is kept by the native
actions, which create permissions under existing ones and remove only those without children.

Ids grow from parent to child. The walk upwards in `satisfies` therefore ends, and it finds
exactly the permissions above the one it starts from.
-/

namespace DreamChain
open Library PermissionLevel FlatMap ChainDb

def Parent (permissions : PermissionIndex) (q r : PermissionLevel) : Prop :=
  ∃ p o, permissions.find? q = some p ∧ permissions.find? r = some o ∧ p.parent ≠ 0 ∧
    p.parent = o.id

/-- The first permission is the second one or an ancestor of it. -/
def AtOrAbove (permissions : PermissionIndex) (r q : PermissionLevel) : Prop :=
  Relation.ReflTransGen (Parent permissions) q r

theorem atOrAbove_iff_of_ne {permissions q s} (h : q ≠ s) :
    AtOrAbove permissions s q ↔ ∃ r, Parent permissions q r ∧ AtOrAbove permissions s r :=
  Relation.ReflTransGen.cases_head_iff.trans (or_iff_right h)

def reservedLevel : PermissionLevel := ⟨0, 0⟩

/-- What holds of the permissions of a set of accounts when ids below `next` were handed out. -/
structure PermissionTree (A : AccountName → Prop) (permissions : PermissionIndex) (next : Nat) :
    Prop where
  reserved : ∃ p, permissions.find? reservedLevel = some p ∧ p.id = 0 ∧ p.parent = 0
  fresh : ∀ {l p}, permissions.find? l = some p → p.id < next
  unique : ∀ {l l' p p'}, permissions.find? l = some p → permissions.find? l' = some p' →
    p.id = p'.id → l = l'
  owned : ∀ {l p}, permissions.find? l = some p → l = reservedLevel ∨ A l.actor ∧ l.Named
  owner : ∀ {a}, A a → ∃ p, permissions.find? ⟨a, config.ownerName⟩ = some p ∧ p.parent = 0
  parent : ∀ {l p}, permissions.find? l = some p → l ≠ reservedLevel →
    l.permission ≠ config.ownerName → ∃ q o, permissions.find? ⟨l.actor, q⟩ = some o ∧
      p.parent = o.id ∧ o.id < p.id

namespace PermissionTree

variable {A : AccountName → Prop} {permissions : PermissionIndex} {next : Nat}

theorem congr {A' : AccountName → Prop} (h : PermissionTree A permissions next)
    (hA : ∀ b, A' b ↔ A b) : PermissionTree A' permissions next :=
  (funext fun b => propext (hA b) : A' = A) ▸ h

section Steps

variable {a : AccountName} {q r : PermissionName} {p o : PermissionObject} {auth : Authority}

section

variable (h : PermissionTree A permissions next)
include h

theorem insertNew {parent : Nat} (hnamed : PermissionLevel.Named ⟨a, q⟩)
    (habsent : ⟨a, q⟩ ∉ permissions.keys) (hparent : q = config.ownerName ∧ parent = 0 ∨
      A a ∧ ∃ r o, permissions.find? ⟨a, r⟩ = some o ∧ parent = o.id) :
    PermissionTree (fun b => b = a ∨ A b) (permissions.insert ⟨a, q⟩ ⟨next, parent, auth⟩)
      (next + 1) := by
  have hkeep : ∀ {l p}, permissions.find? l = some p →
      (permissions.insert ⟨a, q⟩ ⟨next, parent, auth⟩).find? l = some p :=
    fun hl => (permissions.find?_insert_absent habsent).mpr (.inr hl)
  constructor
  · obtain ⟨p, hp, hid⟩ := h.reserved
    exact ⟨p, hkeep hp, hid⟩
  · intro l p hl
    cases (permissions.find?_insert_absent habsent).mp hl with
    | inl hnew =>
      rw [hnew.2]
      exact Nat.lt_succ_self next
    | inr hold => exact Nat.lt_succ_of_lt (h.fresh hold)
  · intro l _ p _ hl hl' hid
    cases (permissions.find?_insert_absent habsent).mp hl with
    | inl hnew =>
      cases (permissions.find?_insert_absent habsent).mp hl' with
      | inl hnew' => exact hnew.1.trans hnew'.1.symm
      | inr hold' =>
        rw [hnew.2] at hid
        exact absurd hid (Nat.ne_of_gt (h.fresh hold'))
    | inr hold =>
      cases (permissions.find?_insert_absent habsent).mp hl' with
      | inl hnew' =>
        rw [hnew'.2] at hid
        exact absurd hid (Nat.ne_of_lt (h.fresh hold))
      | inr hold' => exact h.unique hold hold' hid
  · intro l p hl
    cases (permissions.find?_insert_absent habsent).mp hl with
    | inl hnew =>
      rw [hnew.1]
      exact .inr ⟨.inl rfl, hnamed⟩
    | inr hold => exact (h.owned hold).imp_right fun hA => ⟨.inr hA.1, hA.2⟩
  · intro b hb
    have hold : A b → ∃ p, (permissions.insert ⟨a, q⟩ ⟨next, parent, auth⟩).find?
        ⟨b, config.ownerName⟩ = some p ∧ p.parent = 0 := fun hA => by
      obtain ⟨p, hp, hroot⟩ := h.owner hA
      exact ⟨p, hkeep hp, hroot⟩
    cases hb with
    | inr hA => exact hold hA
    | inl heq =>
      subst heq
      cases hparent with
      | inr hA => exact hold hA.1
      | inl hroot =>
        rw [← hroot.1]
        exact ⟨_, permissions.find?_insert_self _ _, hroot.2⟩
  · intro l p hl hreserved howner
    obtain ⟨rfl, rfl⟩ | hold := (permissions.find?_insert_absent habsent).mp hl
    · obtain hroot | ⟨_, r, o, ho, hid⟩ := hparent
      · exact absurd hroot.1 howner
      · exact ⟨r, o, hkeep ho, hid, h.fresh ho⟩
    · obtain ⟨r, o, ho, hrest⟩ := h.parent hold hreserved howner
      exact ⟨r, o, hkeep ho, hrest⟩

theorem create (hA : A a) (hq : q ≠ 0) (ha : a ≠ 0) (habsent : ⟨a, q⟩ ∉ permissions.keys)
    (ho : permissions.find? ⟨a, r⟩ = some o) :
    PermissionTree A (permissions.insert ⟨a, q⟩ ⟨next, o.id, auth⟩) (next + 1) := by
  have hnew : PermissionTree (fun b => b = a ∨ A b)
      (permissions.insert ⟨a, q⟩ ⟨next, o.id, auth⟩) (next + 1) :=
    h.insertNew ⟨ha, hq⟩ habsent (.inr ⟨hA, r, o, ho, rfl⟩)
  refine hnew.congr fun b => ⟨.inr, ?_⟩
  intro hb
  cases hb with
  | inl heq => exact heq ▸ hA
  | inr hb => exact hb

theorem account_ne_zero (hA : A a) : a ≠ 0 := by
  obtain ⟨p, hp, _⟩ := h.owner hA
  cases h.owned hp with
  | inl heq =>
    exact absurd (congrArg permission heq) config.ownerName_ne_zero
  | inr hnamed => exact hnamed.2.1

theorem modify {l : PermissionLevel} (hl : permissions.find? l = some p) :
    PermissionTree A (permissions.insert l { p with auth }) next := by
  have hback : ∀ {j y}, (permissions.insert l { p with auth }).find? j = some y →
      ∃ x, permissions.find? j = some x ∧ x.id = y.id ∧ x.parent = y.parent := by
    intro j y hj
    rw [find?_insert] at hj
    split at hj
    · rename_i heq
      cases hj
      exact ⟨p, heq ▸ hl, rfl, rfl⟩
    · exact ⟨y, hj, rfl, rfl⟩
  have hforth : ∀ {j x}, permissions.find? j = some x →
      ∃ y, (permissions.insert l { p with auth }).find? j = some y ∧ x.id = y.id ∧
        x.parent = y.parent := by
    intro j x hj
    rw [find?_insert]
    split
    · rename_i heq
      subst heq
      cases hl.symm.trans hj
      exact ⟨_, rfl, rfl, rfl⟩
    · exact ⟨x, hj, rfl, rfl⟩
  constructor
  · obtain ⟨x, hx, hid, hparent⟩ := h.reserved
    obtain ⟨y, hy, hyid, hyparent⟩ := hforth hx
    exact ⟨y, hy, hyid ▸ hid, hyparent ▸ hparent⟩
  · intro j y hj
    obtain ⟨x, hx, hid, _⟩ := hback hj
    exact hid ▸ h.fresh hx
  · intro j _ y _ hj hj' heq
    obtain ⟨x, hx, hid, _⟩ := hback hj
    obtain ⟨_, hx', hid', _⟩ := hback hj'
    exact h.unique hx hx' (hid.trans (heq.trans hid'.symm))
  · intro j y hj
    obtain ⟨x, hx, _⟩ := hback hj
    exact h.owned hx
  · intro b hb
    obtain ⟨x, hx, hroot⟩ := h.owner hb
    obtain ⟨y, hy, _, hparent⟩ := hforth hx
    exact ⟨y, hy, hparent ▸ hroot⟩
  · intro j y hj hreserved howner
    obtain ⟨x, hx, hid, hparent⟩ := hback hj
    obtain ⟨r, o, ho, hro, hlt⟩ := h.parent hx hreserved howner
    obtain ⟨o', ho', hid', _⟩ := hforth ho
    refine ⟨r, o', ho', ?_, ?_⟩
    · rw [← hparent, hro, hid']
    · rw [← hid, ← hid']
      exact hlt

theorem remove (hnamed : PermissionLevel.Named ⟨a, q⟩) (howner : q ≠ config.ownerName)
    (hp : permissions.find? ⟨a, q⟩ = some p) (hleaf : ∀ x ∈ permissions.values, x.parent ≠ p.id) :
    PermissionTree A (permissions.erase ⟨a, q⟩) next := by
  have hback : ∀ {j y}, (permissions.erase ⟨a, q⟩).find? j = some y →
      permissions.find? j = some y :=
    fun hj => (permissions.find?_erase_eq_some_iff.mp hj).2
  constructor
  · obtain ⟨x, hx, hid⟩ := h.reserved
    refine ⟨x, permissions.find?_erase_eq_some_iff.mpr ⟨?_, hx⟩, hid⟩
    intro heq
    exact hnamed.2 (congrArg permission heq)
  · intro j y hj
    exact h.fresh (hback hj)
  · intro j _ y _ hj hj' heq
    exact h.unique (hback hj) (hback hj') heq
  · intro j y hj
    exact h.owned (hback hj)
  · intro b hb
    obtain ⟨x, hx, hroot⟩ := h.owner hb
    refine ⟨x, permissions.find?_erase_eq_some_iff.mpr ⟨?_, hx⟩, hroot⟩
    intro heq
    exact howner (congrArg permission heq)
  · intro j y hj hreserved hj'
    obtain ⟨r, o, ho, hparent, hlt⟩ := h.parent (hback hj) hreserved hj'
    refine ⟨r, o, permissions.find?_erase_eq_some_iff.mpr ⟨?_, ho⟩, hparent, hlt⟩
    intro heq
    rw [← heq] at ho
    cases hp.symm.trans ho
    exact hleaf y ((permissions.mem_values_iff y).mpr ⟨j, hback hj⟩) hparent

end

end Steps

section Walk

variable {l : PermissionLevel} {p : PermissionObject}

section

variable (h : PermissionTree A permissions next)
include h

theorem id_eq_zero (hl : permissions.find? l = some p) : p.id = 0 ↔ l = reservedLevel := by
  obtain ⟨x, hx, hid, _⟩ := h.reserved
  constructor
  · intro hzero
    exact h.unique hl hx (hzero.trans hid.symm)
  · intro heq
    subst heq
    cases hx.symm.trans hl
    exact hid

theorem exists_parent (hl : permissions.find? l = some p) (hparent : p.parent ≠ 0) :
    ∃ r o, permissions.find? ⟨l.actor, r⟩ = some o ∧
      Parent permissions l ⟨l.actor, r⟩ ∧ p.parent = o.id ∧ o.id < p.id := by
  have hreserved : l ≠ reservedLevel := by
    intro heq
    obtain ⟨x, hx, _, hroot⟩ := h.reserved
    cases hx.symm.trans (heq ▸ hl)
    exact hparent hroot
  have howner : l.permission ≠ config.ownerName := by
    intro heq
    have hA := ((h.owned hl).resolve_left hreserved).1
    obtain ⟨x, hx, hroot⟩ := h.owner hA
    rw [← heq] at hx
    cases hx.symm.trans hl
    exact hparent hroot
  obtain ⟨r, o, ho, hid, hlt⟩ := h.parent hl hreserved howner
  exact ⟨r, o, ho, ⟨p, o, hl, ho, hparent, hid⟩, hid, hlt⟩

theorem parent_unique {r r' : PermissionLevel} (hr : Parent permissions l r)
    (hr' : Parent permissions l r') : r = r' := by
  obtain ⟨p, o, hp, ho, _, hid⟩ := hr
  obtain ⟨_, _, hp', ho', _, hid'⟩ := hr'
  cases hp.symm.trans hp'
  exact h.unique ho ho' (hid.symm.trans hid')

theorem findById_eq (hl : permissions.find? l = some p) : permissions.findById p.id = some p := by
  rw [PermissionIndex.findById]
  cases hfind : permissions.values.find? fun x => x.id = p.id with
  | none =>
    have hnone := List.find?_eq_none.mp hfind p ((permissions.mem_values_iff p).mpr ⟨l, hl⟩)
    exact absurd (decide_eq_true rfl) hnone
  | some x =>
    have hid : x.id = p.id := of_decide_eq_true (List.find?_some hfind :)
    obtain ⟨j, hj⟩ := (permissions.mem_values_iff x).mp (List.mem_of_find?_eq_some hfind)
    rw [h.unique hj hl hid] at hj
    exact hj.symm.trans hl

theorem parent_lt (hl : permissions.find? l = some p) (hid : p.id ≠ 0) : p.parent < p.id := by
  by_cases hroot : p.parent = 0
  · omega
  · obtain ⟨_, o, _, _, heq, hlt⟩ := h.exists_parent hl hroot
    omega

end

variable {fuel : Nat}

section

variable (h : PermissionTree A permissions next)
include h

theorem satisfiesWalk_spec {s o}
    (hs : permissions.find? s = some o) (hid : o.id ≠ 0) (hl : permissions.find? l = some p)
    (hfuel : p.parent < fuel) : ∃ b, satisfiesWalk permissions o.id fuel p = some b ∧
      (b = true ↔ ∃ r, Parent permissions l r ∧ AtOrAbove permissions s r) := by
  induction fuel generalizing l p with
  | zero => exact absurd hfuel (Nat.not_lt_zero _)
  | succ _ ih =>
    rw [satisfiesWalk]
    by_cases hfound : o.id = p.parent
    · refine ⟨true, if_pos hfound, iff_of_true rfl ⟨s, ?_, .refl⟩⟩
      exact ⟨p, o, hl, hs, hfound ▸ hid, hfound.symm⟩
    rw [if_neg hfound]
    by_cases hroot : p.parent = 0
    · refine ⟨false, if_pos hroot, iff_of_false nofun ?_⟩
      rintro ⟨r, ⟨x, _, hx, _, hne, _⟩, _⟩
      cases hl.symm.trans hx
      exact hne hroot
    rw [if_neg hroot]
    obtain ⟨r, x, hx, hparent, heq, _⟩ := h.exists_parent hl hroot
    have hlt := h.parent_lt hx (heq ▸ hroot)
    obtain ⟨b, hwalk, hb⟩ := ih hx (by omega)
    refine ⟨b, ?_, hb.trans ?_⟩
    · rw [heq, h.findById_eq hx]
      exact hwalk
    · -- the ancestors that are left are those of the parent, which is not looked for
      have hne : ⟨l.actor, r⟩ ≠ s := by
        intro hrs
        rw [hrs, hs] at hx
        exact hfound ((congrArg PermissionObject.id (Option.some.inj hx)).trans heq.symm)
      rw [← atOrAbove_iff_of_ne hne]
      constructor
      · intro hup
        exact ⟨_, hparent, hup⟩
      · rintro ⟨_, hr', hup⟩
        cases h.parent_unique hr' hparent
        exact hup

theorem satisfiesWithin_spec {self other : PermissionLevel × PermissionObject}
    (hself : permissions.find? self.1 = some self.2)
    (hother : permissions.find? other.1 = some other.2) (hfuel : other.2.parent < fuel) :
    ∃ b, satisfiesWithin permissions fuel self other = some b ∧
      (b = true ↔ self.1.actor = other.1.actor ∧ AtOrAbove permissions self.1 other.1) := by
  rw [satisfiesWithin]
  by_cases hactor : self.1.actor = other.1.actor
  swap
  · exact ⟨false, if_pos hactor, iff_of_false nofun fun hb => hactor hb.1⟩
  rw [if_neg (not_not.mpr hactor)]
  simp only [hactor, true_and]
  by_cases hsame : self.2.id = other.2.id
  · refine ⟨true, if_pos (.inl hsame), iff_of_true rfl ?_⟩
    rw [h.unique hself hother hsame]
    exact .refl
  have hid : self.2.id ≠ 0 := by
    intro hzero
    have hreserved := (h.id_eq_zero hself).mp hzero
    cases h.owned hother with
    | inl heq => exact hsame (hzero.trans ((h.id_eq_zero hother).mpr heq).symm)
    | inr hnamed => exact hnamed.2.1 (hactor.symm.trans (congrArg actor hreserved))
  have hne : other.1 ≠ self.1 := by
    intro heq
    rw [heq, hself] at hother
    exact hsame (congrArg PermissionObject.id (Option.some.inj hother))
  rw [atOrAbove_iff_of_ne hne]
  by_cases hroot : other.2.parent = 0
  · -- the walk starts and ends at the reserved permission
    obtain ⟨x, hx, hxid, hxparent⟩ := h.reserved
    have hfind := h.findById_eq hx
    rw [hxid] at hfind
    refine ⟨false, ?_, iff_of_false nofun fun hup => ?_⟩
    · obtain ⟨-, rfl⟩ := Nat.exists_eq_succ_of_ne_zero (Nat.ne_of_gt (Nat.zero_lt_of_lt hfuel))
      rw [hroot, if_neg (not_or.mpr ⟨hsame, hid⟩), hfind, Option.bind_some, satisfiesWalk, hxparent,
        if_neg hid, if_pos rfl]
    · obtain ⟨_, ⟨y, _, hy, _, hne, _⟩, _⟩ := hup
      cases hother.symm.trans hy
      exact hne hroot
  · -- from here on the loop does what it does at each permission below the root
    obtain ⟨b, hwalk, hb⟩ := h.satisfiesWalk_spec hself hid hother (Nat.lt_succ_of_lt hfuel)
    rw [satisfiesWalk, if_neg hroot] at hwalk
    refine ⟨b, ?_, hb⟩
    simpa only [hsame, false_or] using hwalk

theorem owner_atOrAbove (hl : permissions.find? l = some p) (hA : A l.actor) :
    AtOrAbove permissions ⟨l.actor, config.ownerName⟩ l := by
  induction hn : p.id using Nat.strong_induction_on generalizing l p with
  | _ n ih =>
    by_cases howner : l.permission = config.ownerName
    · rw [← howner]
      exact .refl
    · have hreserved : l ≠ reservedLevel := by
        intro heq
        exact h.account_ne_zero hA (congrArg actor heq)
      obtain ⟨r, o, ho, hid, hlt⟩ := h.parent hl hreserved howner
      have hne : p.parent ≠ 0 := by
        intro hzero
        have heq := (h.id_eq_zero ho).mp (hid.symm.trans hzero)
        exact h.account_ne_zero hA (congrArg actor heq)
      have hup := ih o.id (hn ▸ hlt) ho hA rfl
      exact .head ⟨p, o, hl, ho, hne, hid⟩ hup

end

end Walk

end PermissionTree

variable {metadata : AccountMetadataObject} {account : AccountObject} {data : ActionData}

section Changes

variable {allowed : Environment → Prop} {E : Environment} {db db' : ChainDb}

structure SameAuthorization (db db' : ChainDb) : Prop where
  accounts : ∀ a, a ∈ db'.accounts.keys ↔ a ∈ db.accounts.keys
  permissions : db'.permissions = db.permissions
  nextPermissionId : db'.nextPermissionId = db.nextPermissionId
  links : db'.links = db.links

namespace SameAuthorization

theorem refl : SameAuthorization db db := ⟨fun _ => .rfl, rfl, rfl, rfl⟩

theorem trans {db₁ : ChainDb} (h : SameAuthorization db db₁) (h₁ : SameAuthorization db₁ db') :
    SameAuthorization db db' where
  accounts a := (h₁.accounts a).trans (h.accounts a)
  permissions := h₁.permissions.trans h.permissions
  nextPermissionId := h₁.nextPermissionId.trans h.nextPermissionId
  links := h₁.links.trans h.links

theorem addRamUsage {account ramDelta}
    (h : db.addRamUsage account ramDelta = .ok db') : SameAuthorization db db' := by
  rw [addRamUsage_frame h]
  exact ⟨fun _ => .rfl, rfl, rfl, rfl⟩

theorem releaseExistingCode {account hash oldSize}
    (h : releaseExistingCode db account hash = .ok (oldSize, db')) : SameAuthorization db db' := by
  rw [DreamChain.releaseExistingCode] at h
  split at h
  · cases h
    exact refl
  · split at h
    · cases h
    · simp only [bind_eq_ok] at h
      obtain ⟨_, _, h⟩ := h
      cases h
      rw [releaseCode]
      split <;> exact ⟨fun _ => .rfl, rfl, rfl, rfl⟩

theorem installCode (name : AccountName) (account : AccountMetadataObject) (code : List UInt8) :
    SameAuthorization db (installCode E db name account code) := by
  rw [DreamChain.installCode]
  split
  · exact ⟨fun _ => .rfl, rfl, rfl, rfl⟩
  · rw [acquireCode]
    split <;> exact ⟨fun _ => .rfl, rfl, rfl, rfl⟩

theorem cancelDeferredTransaction {senderId sender found}
    (h : cancelDeferredTransaction E senderId sender db = .ok (found, db')) :
    SameAuthorization db db' := by
  rw [DreamChain.cancelDeferredTransaction] at h
  split at h
  · cases h
    exact refl
  · simp only [bind_eq_ok] at h
    obtain ⟨_, hrefund, h⟩ := h
    cases h
    exact (addRamUsage hrefund).trans ⟨fun _ => .rfl, rfl, rfl, rfl⟩

end SameAuthorization

inductive AuthorizationChange (allowed : Environment → Prop) (db : ChainDb) :
    ActionData → ChainDb → Prop
  | unchanged {data : ActionData} {db' : ChainDb} : SameAuthorization db db' →
      AuthorizationChange allowed db data db'
  | newaccount {create db'} : create.name ≠ 0 →
      ⟨create.name, config.ownerName⟩ ∉ db.permissions.keys →
      ⟨create.name, config.activeName⟩ ∉ db.permissions.keys →
      SameAuthorization (db.withAccount create.name {} {} create.owner create.active) db' →
        AuthorizationChange allowed db (.newaccount create) db'
  | modify {update p db'} :
      db.permissions.find? ⟨update.account, update.permission⟩ = some p →
      SameAuthorization
        (db.modifyPermission ⟨update.account, update.permission⟩ p update.auth) db' →
        AuthorizationChange allowed db (.updateauth update) db'
  | create {update parent db'} :
      update.account ∈ db.accounts.keys → update.permission ≠ 0 →
      ⟨update.account, update.permission⟩ ∉ db.permissions.keys →
      parentId update db = .ok parent →
      SameAuthorization
        { db with permissions := db.permissions.insert ⟨update.account, update.permission⟩
                    ⟨db.nextPermissionId, parent, update.auth⟩
                  nextPermissionId := db.nextPermissionId + 1 } db' →
        AuthorizationChange allowed db (.updateauth update) db'
  | remove {remove p db'} :
      remove.permission ≠ config.activeName → remove.permission ≠ config.ownerName →
      (∀ e ∈ db.links.entries, (ofLex e.1).1 = remove.account → e.2 ≠ remove.permission) →
      PermissionLevel.Named ⟨remove.account, remove.permission⟩ →
      db.permissions.find? ⟨remove.account, remove.permission⟩ = some p →
      (∀ q ∈ db.permissions.values, q.parent ≠ p.id) →
      SameAuthorization
        { db with permissions := db.permissions.erase ⟨remove.account, remove.permission⟩ } db' →
        AuthorizationChange allowed db (.deleteauth remove) db'
  | link {E requirement db'} : allowed E →
      requirement.requirement = config.eosioAnyName ∨ requirement.PermissionExists E db →
      SameAuthorization { db with
        links := db.links.insert (linkKey requirement.account requirement.code requirement.type)
          requirement.requirement } db' →
        AuthorizationChange allowed db (.linkauth requirement) db'
  | unlink {unlink db'} :
      SameAuthorization { db with
        links := db.links.erase (linkKey unlink.account unlink.code unlink.type) } db' →
        AuthorizationChange allowed db (.unlinkauth unlink) db'

theorem NativeEffect.authorizationChange (hE : allowed E)
    (h : NativeEffect E db data db') : AuthorizationChange allowed db data db' := by
  cases h with
  | newaccount hname hcreated =>
    exact .newaccount hname hcreated.owner_absent hcreated.active_absent (.addRamUsage hcreated.charged)
  | setcode _ hrelease hcharge =>
    exact .unchanged ((SameAuthorization.releaseExistingCode hrelease).trans
      ((SameAuthorization.installCode _ _ _).trans (.addRamUsage hcharge)))
  | setabi haccount hcharge =>
    have hsame := SameAuthorization.addRamUsage hcharge
    refine .unchanged ⟨fun a => (hsame.accounts a).trans ?_, hsame.permissions,
      hsame.nextPermissionId, hsame.links⟩
    rw [mem_keys_insert]
    exact or_iff_right_of_imp fun heq => heq ▸ mem_keys_of_find? haccount
  | updateauth heffect =>
    cases heffect with
    | modify hp _ hcharge => exact .modify hp (.addRamUsage hcharge)
    | create haccount hname habsent hparent hcharge =>
      exact .create haccount hname habsent hparent (.addRamUsage hcharge)
  | deleteauth heffect =>
    obtain ⟨hactive, howner, hlinks, hnamed, hp, hleaf, hcharge⟩ := heffect
    exact .remove hactive howner hlinks hnamed hp hleaf (.addRamUsage hcharge)
  | linkauth heffect =>
    cases heffect with
    | relink hexists => exact .link hE hexists .refl
    | link _ hexists _ hcharge => exact .link hE hexists (.addRamUsage hcharge)
  | unlinkauth heffect =>
    obtain ⟨_, hrefund⟩ := heffect
    have hsame := SameAuthorization.addRamUsage hrefund
    refine .unlink ⟨hsame.accounts, hsame.permissions, hsame.nextPermissionId, ?_⟩
    exact congrArg (erase · _) hsame.links
  | canceldelay hcancel => exact .unchanged (.cancelDeferredTransaction hcancel)
  | other => exact .unchanged .refl

theorem parentId_ok {update parent} (h : parentId update db = .ok parent) :
    update.permission = config.ownerName ∧ parent = 0 ∨
      update.permission ≠ config.ownerName ∧
        ∃ o, db.permissions.find? ⟨update.account, update.parent⟩ = some o ∧ parent = o.id := by
  rw [parentId] at h
  split at h
  · rename_i howner
    cases h
    exact .inl ⟨howner, rfl⟩
  · rename_i howner
    simp only [bind_eq_ok, lift_eq_ok, getPermission_ok] at h
    obtain ⟨o, ⟨_, ho⟩, h⟩ := h
    cases h
    exact .inr ⟨howner, o, ho, rfl⟩

variable {name : AccountName} {owner active : Authority}

theorem ChainDb.AccountCreated.authorizationChange (hname : name ≠ 0)
    (h : db.AccountCreated name account metadata owner active db') :
    AuthorizationChange allowed db (.newaccount ⟨0, name, owner, active⟩) db' := by
  have hsame := SameAuthorization.addRamUsage h.charged
  refine .newaccount hname h.owner_absent h.active_absent ?_
  refine ⟨fun a => (hsame.accounts a).trans ?_, hsame.permissions, hsame.nextPermissionId, hsame.links⟩
  simp only [withAccount, mem_keys_insert]

theorem ChainDb.createPermission_authorizationChange (update : UpdateAuth) {o : PermissionObject}
    {r : PermissionObject × ChainDb} (haccount : update.account ∈ db.accounts.keys)
    (hname : update.permission ≠ 0) (howner : update.permission ≠ config.ownerName)
    (ho : db.getPermission ⟨update.account, update.parent⟩ = .ok o)
    (h : db.createPermission ⟨update.account, update.permission⟩ o.id update.auth = .ok r) :
    AuthorizationChange allowed db (.updateauth update) r.2 := by
  obtain ⟨habsent, _, hr⟩ := createPermission_ok h
  rw [hr]
  refine .create haccount hname habsent ?_ .refl
  rw [parentId, if_neg howner, ho]
  rfl

theorem updatePermission_authorizationChange {account permission auth} (h : updatePermission ⟨account, permission⟩ auth db = .ok db') :
    AuthorizationChange allowed db (.updateauth ⟨account, permission, 0, auth⟩) db' := by
  simp only [updatePermission, bind_eq_ok, lift_eq_ok, getPermission_ok] at h
  obtain ⟨p, ⟨_, hp⟩, h⟩ := h
  cases h
  exact .modify hp .refl

theorem createNativeAccount_ok {g isPrivileged}
    (h : createNativeAccount g name owner active isPrivileged db = .ok db') :
    ∃ account metadata, db.AccountCreated name account metadata owner active db' := by
  simp only [createNativeAccount, bind_eq_ok] at h
  obtain ⟨_, haccount, h⟩ := h
  exact ⟨_, _, accountCreated haccount h⟩

/-- A rule for what holds of accounts, permissions and links in every reachable state. -/
theorem Reachable.authorization_rule {P : ChainDb → Prop} (hempty : P emptyDatabase)
    (hstep : ∀ {db data db'}, P db → AuthorizationChange allowed db data db' → P db')
    (h : Reachable allowed db) : P db := by
  induction h with
  | genesis hinit =>
    simp only [initializeDatabase, bind_eq_ok, lift_eq_ok] at hinit
    obtain ⟨db₁, hsystem, db₂, hnull, db₃, hproducers, _, hactive, ⟨_, _⟩, hmajor,
      ⟨_, _⟩, hminor, hdone⟩ := hinit
    cases hdone
    obtain ⟨_, _, hsystem⟩ := createNativeAccount_ok hsystem
    obtain ⟨_, _, hnull⟩ := createNativeAccount_ok hnull
    obtain ⟨_, _, hproducers⟩ := createNativeAccount_ok hproducers
    have h₁ := hstep hempty (hsystem.authorizationChange (by decide +kernel))
    have h₂ := hstep h₁ (hnull.authorizationChange (by decide +kernel))
    have h₃ := hstep h₂ (hproducers.authorizationChange (by decide +kernel))
    have haccount : config.producersAccountName ∈ db₃.accounts.keys := by
      rw [(SameAuthorization.addRamUsage hproducers.charged).accounts]
      exact (mem_keys_insert _ _ _ _).mpr (.inl rfl)
    have h₄ := hstep h₃ (createPermission_authorizationChange
      ⟨_, _, config.activeName, _⟩ haccount (by decide +kernel) (by decide +kernel) hactive hmajor)
    obtain ⟨_, rfl, rfl⟩ := createPermission_ok hmajor
    refine hstep h₄ (createPermission_authorizationChange
      ⟨_, _, config.majorityProducersPermissionName, _⟩ haccount (by decide +kernel)
      (by decide +kernel) (getPermission_ok.mpr ⟨?_, find?_insert_self _ _ _⟩)
      hminor)
    exact ⟨by decide +kernel, by decide +kernel⟩
  | native E _ hE _ ih =>
    rw [executeNative]
    split
    · rename_i hok
      exact hstep ih ((applyNative_effect hok).authorizationChange hE)
    · exact ih
  | producers hupdate _ ih =>
    simp only [updateProducersAuthority, bind_eq_ok] at hupdate
    obtain ⟨_, hactive, _, hmajor, hminor⟩ := hupdate
    have h₁ := hstep ih (updatePermission_authorizationChange hactive)
    have h₂ := hstep h₁ (updatePermission_authorizationChange hmajor)
    exact hstep h₂ (updatePermission_authorizationChange hminor)

end Changes

section Reachable

variable {allowed : Environment → Prop} {E : Environment} {db db' : ChainDb}

def ChainDb.TreeShaped (db : ChainDb) : Prop :=
  PermissionTree (· ∈ db.accounts.keys) db.permissions db.nextPermissionId

namespace ChainDb.TreeShaped

variable (h : db.TreeShaped)
include h

theorem of_same (hsame : SameAuthorization db db') : db'.TreeShaped := by
  rw [TreeShaped, hsame.permissions, hsame.nextPermissionId]
  exact PermissionTree.congr h hsame.accounts

theorem withAccount {name owner active} (hname : name ≠ 0)
    (howner : ⟨name, config.ownerName⟩ ∉ db.permissions.keys)
    (hactive : ⟨name, config.activeName⟩ ∉ db.permissions.keys) :
    (db.withAccount name account metadata owner active).TreeShaped := by
  have hroot : PermissionTree (fun b => b = name ∨ b ∈ db.accounts.keys)
      (db.permissions.insert ⟨name, config.ownerName⟩ ⟨db.nextPermissionId, 0, owner⟩)
      (db.nextPermissionId + 1) :=
    PermissionTree.insertNew h ⟨hname, config.ownerName_ne_zero⟩ howner (.inl ⟨rfl, rfl⟩)
  refine PermissionTree.congr (hroot.create (.inl rfl) config.activeName_ne_zero hname ?_
    (find?_insert_self _ _ _)) fun b => mem_keys_insert _ _ _ _
  rw [mem_keys_insert, not_or]
  refine ⟨fun heq => ?_, hactive⟩
  exact config.activeName_ne_ownerName (congrArg permission heq)

theorem step (hstep : AuthorizationChange allowed db data db') : db'.TreeShaped := by
  cases hstep with
  | unchanged hsame => exact h.of_same hsame
  | newaccount hname howner hactive hsame => exact (h.withAccount hname howner hactive).of_same hsame
  | modify hp hsame =>
    refine of_same ?_ hsame
    exact PermissionTree.modify h hp
  | create haccount hname habsent hparent hsame =>
    refine of_same ?_ hsame
    obtain hroot | ⟨_, o, ho, rfl⟩ := parentId_ok hparent
    · -- an existing account has its owner permission
      obtain ⟨p, hp, _⟩ := PermissionTree.owner h haccount
      rw [hroot.1] at habsent
      exact absurd (mem_keys_of_find? hp) habsent
    · exact PermissionTree.create h haccount hname (PermissionTree.account_ne_zero h haccount)
        habsent ho
  | remove _ howner _ hnamed hp hleaf hsame =>
    refine of_same ?_ hsame
    exact PermissionTree.remove h hnamed howner hp hleaf
  | link _ _ hsame | unlink hsame =>
    refine of_same ?_ hsame
    exact h

end ChainDb.TreeShaped

theorem find?_emptyDatabase {l p} :
    emptyDatabase.permissions.find? l = some p ↔ l = reservedLevel ∧ p = reservedPermission := by
  refine (find?_insert_absent _ List.not_mem_nil).trans (or_iff_left ?_)
  exact nofun

theorem treeShaped_emptyDatabase : emptyDatabase.TreeShaped where
  reserved := ⟨reservedPermission, find?_emptyDatabase.mpr ⟨rfl, rfl⟩, rfl, rfl⟩
  fresh hl := by
    rw [(find?_emptyDatabase.mp hl).2]
    exact Nat.zero_lt_one
  unique hl hl' _ := (find?_emptyDatabase.mp hl).1.trans (find?_emptyDatabase.mp hl').1.symm
  owned hl := .inl (find?_emptyDatabase.mp hl).1
  owner hA := absurd hA List.not_mem_nil
  parent hl hreserved _ := absurd (find?_emptyDatabase.mp hl).1 hreserved

theorem Reachable.treeShaped (h : Reachable allowed db) : db.TreeShaped :=
  h.authorization_rule treeShaped_emptyDatabase fun h hstep => h.step hstep

/-- Each account has one tree of permissions, and `satisfies` decides the order in it. -/
structure ChainDb.PermissionForest (db : ChainDb) : Prop where
  owner : ∀ a ∈ db.accounts.keys,
    ∃ p, db.permissions.find? ⟨a, config.ownerName⟩ = some p ∧ p.parent = 0
  only_owner : ∀ a ∈ db.accounts.keys, ∀ q p, db.permissions.find? ⟨a, q⟩ = some p →
    p.parent = 0 → q = config.ownerName
  parent : ∀ l p, db.permissions.find? l = some p → l ≠ reservedLevel →
    l.permission ≠ config.ownerName → ∃ q o, db.permissions.find? ⟨l.actor, q⟩ = some o ∧
      p.parent = o.id ∧ o.id < p.id
  reaches_owner : ∀ a ∈ db.accounts.keys, ∀ q, ⟨a, q⟩ ∈ db.permissions.keys →
    AtOrAbove db.permissions ⟨a, config.ownerName⟩ ⟨a, q⟩
  /-- The loop ends: more steps than it is given here do not change the result. -/
  satisfies_iff : ∀ self other, db.permissions.find? self.1 = some self.2 →
    db.permissions.find? other.1 = some other.2 →
      ∃ b, satisfies db.permissions self other = some b ∧
        (∀ fuel > other.2.parent, satisfiesWithin db.permissions fuel self other = some b) ∧
        (b = true ↔ self.1.actor = other.1.actor ∧ AtOrAbove db.permissions self.1 other.1)

theorem permissionForest_of_reachable (h : Reachable allowed db) : db.PermissionForest := by
  have htree := h.treeShaped
  constructor
  · intro a ha
    exact htree.owner ha
  · intro a ha q p hp hroot
    by_contra howner
    have hreserved : (⟨a, q⟩ : PermissionLevel) ≠ reservedLevel := fun heq =>
      htree.account_ne_zero ha (congrArg actor heq)
    obtain ⟨r, o, ho, hid, _⟩ := htree.parent hp hreserved howner
    have heq := (htree.id_eq_zero ho).mp (hid.symm.trans hroot)
    exact htree.account_ne_zero ha (congrArg actor heq)
  · intro l p hp hreserved howner
    exact htree.parent hp hreserved howner
  · intro a ha q hq
    obtain ⟨p, hp⟩ := (db.permissions.mem_keys_iff _).mp hq
    exact htree.owner_atOrAbove hp ha
  · intro _ _ hself hother
    obtain ⟨b, hb, hiff⟩ := htree.satisfiesWithin_spec hself hother (Nat.lt_succ_self _)
    refine ⟨b, hb, fun fuel hfuel => ?_, hiff⟩
    obtain ⟨_, hb', hiff'⟩ := htree.satisfiesWithin_spec hself hother hfuel
    rw [hb', Bool.eq_iff_iff.mpr (hiff'.trans hiff.symm)]

end Reachable

section Sample

variable {allowed : Environment → Prop} {db : ChainDb}

def sampleEnvironment : Environment where
  hash code := ⟨1, 0, 0, code.length⟩
  validateCode _ := .ok ()
  packSize _ := 0

def sampleAccount : AccountName := stringToName "alice"

def samplePermission : PermissionName := stringToName "x"

def sampleNewaccount : Action where
  account := config.systemAccountName
  name := NewAccount.getName
  authorization := [⟨config.systemAccountName, config.activeName⟩]
  data := .newaccount ⟨config.systemAccountName, sampleAccount, .ofKey [1], .ofKey [2]⟩

def sampleUpdateauth (declared parent : PermissionName) : Action where
  account := config.systemAccountName
  name := UpdateAuth.getName
  authorization := [⟨sampleAccount, declared⟩]
  data := .updateauth ⟨sampleAccount, samplePermission, parent, .ofKey [3]⟩

def sampleChain : Applied ChainDb := do
  let db ← initializeDatabase {}
  applyActions sampleEnvironment
    [sampleNewaccount, sampleUpdateauth config.activeName config.activeName] db

theorem reachable_sampleChain (hE : allowed sampleEnvironment) (h : sampleChain = .ok db) :
    Reachable allowed db := by
  simp only [sampleChain, bind_eq_ok] at h
  obtain ⟨_, hinit, hrun⟩ := h
  exact (Reachable.genesis hinit).applyActions hE hrun

theorem permissionForest_sampleChain : ∃ db, sampleChain = .ok db ∧ db.PermissionForest := by
  obtain ⟨db, hdb⟩ : ∃ db, sampleChain = .ok db := by decide +kernel
  exact ⟨db, hdb, permissionForest_of_reachable (reachable_sampleChain trivial hdb :
    Reachable (fun _ => True) db)⟩

end Sample

end DreamChain
