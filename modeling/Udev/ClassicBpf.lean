import Mathlib.Data.List.Basic

/-! Classic BPF as a socket filter: the accumulator, loads of words in network
order from the packet, and jumps, which only go forward. A program is run on the rest
of its instructions, so that a jump skips instructions. -/
namespace Udev
namespace ClassicBpf

inductive Insn
  | ldAbs (k : ℕ) | and (k : UInt32) | jeq (k : UInt32) (jt jf : UInt8) | ret (k : UInt32)
  deriving DecidableEq, Repr

def be32 (w : UInt32) : List UInt8 :=
  [.ofNat (w.toNat/0x1000000),.ofNat (w.toNat/0x10000),.ofNat (w.toNat/0x100),.ofNat w.toNat]

def loadWord (pkt : List UInt8) (k : ℕ) : Option UInt32 :=
  match pkt.drop k with
  | a::b::c::d::_ => some (.ofNat (((a.toNat*0x100+b.toNat)*0x100+c.toNat)*0x100+d.toNat))
  | _ => none

/-- The value of the program after `skip` instructions: how much of the packet is
taken, where 0 drops it. A load past the end drops the packet too. -/
def exec (pkt : List UInt8) : ℕ → List Insn → UInt32 → UInt32
  | _, [], _ => 0
  | skip+1, _::p, a => exec pkt skip p a
  | 0, .ldAbs k::p, _ =>
    match loadWord pkt k with
    | some w => exec pkt 0 p w
    | none => 0
  | 0, .and k::p, a => exec pkt 0 p (a &&& k)
  | 0, .jeq k jt jf::p, a => exec pkt (if a = k then jt else jf).toNat p a
  | 0, .ret k::_, _ => k

variable {pkt : List UInt8} {p q : List Insn} {a k : UInt32}

theorem exec_append (skip : ℕ) : exec pkt (p.length+skip) (p ++ q) a = exec pkt skip q a := by
  induction p with
  | nil => simp
  | cons i p ih =>
    have hlen : (i::p).length+skip = p.length+skip+1 := by simp; omega
    rw [hlen,List.cons_append,exec]
    exact ih

theorem exec_skip {n : ℕ} (h : n = p.length) : exec pkt n (p ++ q) a = exec pkt 0 q a := by
  subst h
  exact exec_append 0

@[simp] theorem exec_ldAbs {off : ℕ} {w : UInt32} (h : loadWord pkt off = some w) :
    exec pkt 0 (.ldAbs off::p) a = exec pkt 0 p w := by
  simp [exec,h]

@[simp] theorem exec_and : exec pkt 0 (.and k::p) a = exec pkt 0 p (a &&& k) := rfl

@[simp] theorem exec_ret : exec pkt 0 (.ret k::p) a = k := rfl

theorem exec_jeq {jt jf : UInt8} :
    exec pkt 0 (.jeq k jt jf::p) a = if a = k then exec pkt jt.toNat p a else exec pkt jf.toNat p a := by
  rw [exec]
  split_ifs <;> rfl

theorem loadWord_be32 (pre post : List UInt8) (w : UInt32) {off : ℕ} (h : off = pre.length) :
    loadWord (pre ++ be32 w ++ post) off = some w := by
  have hlt := w.toNat_lt
  have hnat : ((w.toNat/0x1000000%0x100*0x100+w.toNat/0x10000%0x100)*0x100+w.toNat/0x100%0x100)*0x100+
      w.toNat%0x100 = w.toNat := by omega
  simp [loadWord,be32,h,hnat]

end ClassicBpf
end Udev
