import NTrade.Domain.Coercion
import NTrade.Engines.PositionSync

/-! The adapter's translation of the broker's rows into positions and order book entries. -/
namespace NTrade.Brokers
open NTrade.Domain NTrade.Engines NTrade.Lib

/-- The net quantity of a row, which may have to be told from both sides of the day. -/
def netQty (r : WireRecord) : Int :=
  let qty := firstInt r ["netQty", "quantity"]
  if qty = 0 then firstInt r ["buyQty"] - firstInt r ["sellQty"] else qty

def positionFromRow (r : WireRecord) : Option BrokerPosition :=
  let symbol := firstStr r ["tradingSymbol", "tradingsymbol"]
  let product := firstStr r ["productType"]
  let exchange := firstStr r ["exchangeSegment"]
  if symbol = "" then none
  else
    some
      { symbol
        quantity := some (netQty r : Rat)
        avgPrice := some (firstFloat r ["avgTradingPrice", "avgPrice"])
        ltp := some (firstFloat r ["ltp"])
        product := if product = "" then "MIS" else product
        exchange := if exchange = "" then "NSE" else exchange }

def positionsFromDf (rows : List WireRecord) : List BrokerPosition := rows.filterMap positionFromRow

/-- `r.get(key, r.get(other, default))`. -/
def getOr (r : WireRecord) (key other : String) (default : Cell) : Cell := r.getD key (r.getD other default)

def entryFromRow (r : WireRecord) : Except String OrderBookEntry := do
  let quantity := getOr r "quantity" "qty" (.int 0)
  let price := getOr r "price" "pendingPrice" (.float 0 "0.0")
  let quantity ← if quantity.isFalse then pure 0 else quantity.toInteger
  let price ← if price.isFalse then pure 0 else price.toPrice
  return {
    symbol := (getOr r "tradingSymbol" "symbol" (.text "")).str
    orderId := (getOr r "orderId" "order_id" (.text "")).str
    side := Literal.upper (getOr r "transactionType" "side" (.text "")).str
    quantity
    price
    status := (getOr r "status" "orderState" (.text "")).str
    exchange := (getOr r "exchangeSegment" "exchange" (.text "")).str }

/-- `DhanMapper.normalize_orderbook`: one bad row spoils the book. -/
def normalizeOrderbook (records : List WireRecord) : Except String (List OrderBookEntry) :=
  records.mapM entryFromRow

end NTrade.Brokers
