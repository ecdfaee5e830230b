/-
  LivePreview.Project.Starter

  The project a new session starts with: a page, an application that keeps a
  shopping cart, and the component for one product.
-/

import LivePreview.Project.Basic

namespace LivePreview.Project

/-- Lines of text, each with its end. -/
def starterText (lines : List String) : String := String.join (lines.map (· ++ "\n"))

/-- The page. -/
def starterPage : String :=
  starterText
    ["<!doctype html>",
      "<html>",
      "  <head>",
      "    <meta charset=\"UTF-8\" />",
      "    <meta name=\"viewport\" content=\"width=device-width, initial-scale=1.0\" />",
      "    <title>Playground</title>",
      "  </head>",
      "  <body>",
      "    <div id=\"root\"></div>",
      "  </body>",
      "</html>"]

/-- The application. -/
def starterApp : String :=
  starterText
    ["import React, \x7b useState \x7d from \"react\";",
      "import Product from \"./Product\";",
      "",
      "function App() \x7b",
      "  const products = [",
      "    \x7b id: 1, name: \"Laptop\", price: 60000 \x7d,",
      "    \x7b id: 2, name: \"Headphones\", price: 2000 \x7d,",
      "    \x7b id: 3, name: \"Smartphone\", price: 25000 \x7d,",
      "  ];",
      "",
      "  const [cart, setCart] = useState([]);",
      "",
      "  const addToCart = (product) => \x7b",
      "    setCart([...cart, product]);",
      "  \x7d;",
      "",
      "  return (",
      "    <div style=\x7b\x7b padding: \"20px\" \x7d\x7d>",
      "      <h1>Shopping Cart</h1>",
      "",
      "      <h2>Products</h2>",
      "      <ul>",
      "        \x7bproducts.map((item) => (",
      "          <Product key=\x7bitem.id\x7d product=\x7bitem\x7d addToCart=\x7baddToCart\x7d />",
      "        ))\x7d",
      "      </ul>",
      "",
      "      <h2>Cart (\x7bcart.length\x7d items)</h2>",
      "      <ul>",
      "        \x7bcart.map((item, index) => (",
      "          <li key=\x7bindex\x7d>",
      "            \x7bitem.name\x7d - \x7bitem.price\x7d",
      "          </li>",
      "        ))\x7d",
      "      </ul>",
      "    </div>",
      "  );",
      "\x7d",
      "",
      "export default App;"]

/-- The component for one product. -/
def starterProduct : String :=
  starterText
    ["import React from \"react\";",
      "",
      "function Product(\x7b product, addToCart \x7d) \x7b",
      "  return (",
      "    <li style=\x7b\x7b margin: \"10px 0\" \x7d\x7d>",
      "      \x7bproduct.name\x7d - \x7bproduct.price\x7d\x7b\" \"\x7d",
      "      <button onClick=\x7b() => addToCart(product)\x7d>Add to Cart</button>",
      "    </li>",
      "  );",
      "\x7d",
      "",
      "export default Product;"]

/-- The page, the application and the component, with the application selected. -/
def starter : Project :=
  { ofFiles
      [("index.html", starterPage), ("App.js", starterApp), ("Product.js", starterProduct)] with
    activePath := "App.js" }

end LivePreview.Project
