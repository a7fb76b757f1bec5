import Std.Data.HashMap
import Mintage.Transaction

/-! Unspent outputs, kept per transaction. An entry goes when its last output is spent; a transaction
whose identifier is already there replaces the entry. -/

namespace Mintage

/-- The outputs of one transaction; a spent one is `none`. -/
structure Coins where
  txid : Hash256 := .zero
  height : Nat
  coinbase : Bool
  coinstake : Bool
  outputs : List (Option TxOutput)
deriving DecidableEq, Repr

namespace Coins

def ofTransaction (tx : Transaction) (height : Nat) : Coins where
  txid := tx.txid
  height
  coinbase := tx.isCoinbase
  coinstake := tx.isCoinstake
  outputs := tx.outputs.map some

def output? (coins : Coins) (index : Nat) : Option TxOutput :=
  coins.outputs[index]?.join

def spend (coins : Coins) (index : Nat) : Coins :=
  { coins with outputs := coins.outputs.set index none }

def isSpent (coins : Coins) : Bool :=
  coins.outputs.all Option.isNone

end Coins

structure CoinView where
  entries : Std.HashMap Hash256 Coins := ∅

namespace CoinView

def get? (view : CoinView) (txid : Hash256) : Option Coins :=
  view.entries[txid]?

def size (view : CoinView) : Nat :=
  view.entries.size

/-- Adds the outputs of a transaction. -/
def insert (view : CoinView) (tx : Transaction) (height : Nat) : CoinView :=
  let created := Coins.ofTransaction tx height
  { entries := view.entries.insert created.txid created }

def spend (view : CoinView) (point : OutPoint) : CoinView :=
  match view.get? point.txid with
  | none => view
  | some coins =>
    let left := coins.spend point.index.toNat
    if left.isSpent then { entries := view.entries.erase point.txid }
    else { entries := view.entries.insert point.txid left }

/-- Spends the inputs of a transaction, of which a coinbase has none, and adds its outputs. -/
def update (view : CoinView) (tx : Transaction) (height : Nat) : CoinView :=
  let spent := if tx.isCoinbase then view else tx.inputs.foldl (fun view input => view.spend input.previous) view
  spent.insert tx height

end CoinView
end Mintage
