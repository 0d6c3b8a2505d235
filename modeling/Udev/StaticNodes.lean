import Udev.Interpreter

/-! `udev_rules_apply_static_dev_perms`: the permissions and tags of the nodes that rules
name with `static_node`. It walks the same tokens as the interpreter of the events, but it
returns at once when a change of the file system fails. -/
namespace Udev
namespace Rules

open CString Text Runs

/-- The calls that change the file system; each tells whether it succeeds. A link that
exists is no failure. -/
structure FileOps (σ : Type) where
  stat : σ → CString → Option Stat
  pathCreate : σ → CString → Bool × σ
  symlink : σ → CString → CString → Bool × σ
  chmod : σ → CString → ℕ → Bool × σ
  chown : σ → CString → ℕ → ℕ → Bool × σ
  utimensat : σ → CString → σ

def hexchar (x : ℕ) : UInt8 := charAt (str "0123456789abcdef") (x % 16)

/-- `xescape`; a `char` is signed, so the bytes from 128 on are below the space. -/
def xescape (s bad : CString) : CString :=
  s.flatMap fun c =>
    if c < chr ' ' ∨ c ≥ 127 ∨ c = chr '\\' ∨ (strchr bad c).isSome then
      [chr '\\',chr 'x',hexchar (c.toNat/16),hexchar c.toNat]
    else [c]

structure StaticConfig (σ : Type) where
  cur : ℕ := 0
  rule : ℕ := 0
  uid : ℕ := 0
  gid : ℕ := 0
  mode : ℕ := 0
  tags : List CString := []
  host : σ

inductive Outcome
  | next | nextRule | fail
  deriving DecidableEq, Repr

variable {σ : Type} (ops : FileOps σ)

def exportTags (node value : CString) : List CString → σ → Bool × σ
  | [], s => (true,s)
  | t::ts, s =>
    let tagsDir := strscpyl utilPathSize [str "/run/udev/static_node-tags/",t,str "/"]
    let r := ops.pathCreate s tagsDir
    if !r.1 then (false,r.2)
    else
      let l := ops.symlink r.2 node (strscpyl utilPathSize [tagsDir,xescape value (str "/.")])
      if !l.1 then (false,l.2) else exportTags node value ts l.2

/-- `chmod` and `chown` of a node where they change something. -/
def setPerms (node : CString) (stats : Stat) (mode uid gid : ℕ) (s : σ) : Bool × σ :=
  let r := if mode ≠ (stats.mode &&& 0o1777) then ops.chmod s node mode else (true,s)
  if !r.1 then (false,r.2)
  else
    let o :=
      if (uid ≠ 0 ∧ uid ≠ stats.uid) ∨ (gid ≠ 0 ∧ gid ≠ stats.gid) then ops.chown r.2 node uid gid
      else (true,r.2)
    if !o.1 then (false,o.2) else (true,ops.utimensat o.2 node)

/-- `S_ISBLK` or `S_ISCHR`. -/
def Stat.isDevice (stats : Stat) : Bool :=
  stats.mode &&& 0o170000 = 0o060000 || stats.mode &&& 0o170000 = 0o020000

/-- `TK_A_STATIC_NODE`. -/
def staticNode (c : StaticConfig σ) (value : CString) : Outcome × StaticConfig σ :=
  if c.mode = 0 ∧ c.uid = 0 ∧ c.gid = 0 ∧ c.tags = [] then (.nextRule,c)
  else
    let node := strscpyl utilPathSize [str "/dev/",value]
    match ops.stat c.host node with
    | none => (.next,c)
    | some stats =>
      if !stats.isDevice then (.next,c)
      else
        let r := exportTags ops node value c.tags c.host
        let c := { c with host := r.2 }
        if !r.1 then (.fail,c)
        else if c.mode = 0 ∧ c.uid = 0 ∧ c.gid = 0 then (.next,c)
        else
          let mode := if c.mode = 0 then if c.gid > 0 then 0o660 else 0o600 else c.mode
          let r := setPerms ops node stats mode c.uid c.gid c.host
          (if r.1 then .next else .fail,{ c with mode := mode, host := r.2 })

def staticKey (c : StaticConfig σ) (k : KeyToken) : Outcome × StaticConfig σ :=
  match k.type with
  | .aOwnerId => (.next,{ c with uid := k.num.toNat })
  | .aGroupId => (.next,{ c with gid := k.num.toNat })
  | .aModeId => (.next,{ c with mode := k.num.toNat })
  | .aTag => (.next,{ c with tags := c.tags ++ [k.value] })
  | .aStaticNode => staticNode ops c k.value
  | _ => (.next,c)

/-- One round of the loop; `none` when it returns. -/
def staticStep (ts : List Token) (c : StaticConfig σ) : Option (StaticConfig σ) :=
  match ts[c.cur]? with
  | some (.rule r) =>
    let c : StaticConfig σ := { c with rule := c.cur }
    if !r.hasStaticNode then some { c with cur := c.rule+r.tokenCount }
    else some { c with cur := c.cur+1, uid := 0, gid := 0, mode := 0, tags := [] }
  | some (.key k) =>
    match staticKey ops c k with
    | (.next,c) => some { c with cur := c.cur+1 }
    | (.nextRule,c) => some { c with cur := c.rule+tokenCount ts c.rule }
    | (.fail,_) => none
  | some .tkEnd => none
  | none => none

/-- The configurations of `udev_rules_apply_static_dev_perms`. -/
def staticVisits (ts : List Token) (s : σ) : List (StaticConfig σ) :=
  visits (staticStep ops ts) ts.length { host := s }

end Rules
end Udev
